import Mathlib
import Subleq.Machine.Tracer
import Subleq.Proofs.Placement
import Subleq.Proofs.RoundTrip
import Subleq.Proofs.Steps
import Subleq.Proofs.Writing

/-!
# Subleq.Proofs.Alike — running from source and from an image

A machine never looks at its program store but by fetching cells. So two stores from which the same
cells are fetched (`Program.Alike`) are the same to it, though one of them may hold nothing where
the other one holds empty cells: steps, runs and preloads agree in everything but the store itself,
and the dumps are the same. The store of a compiled program and the one that is read from its image
are of this kind.
-/

namespace Subleq

open Layout

/-! ## Stores from which the same cells are fetched -/

/-- The same cell is fetched at each address. -/
def Program.Alike (p q : Program) : Prop := ∀ a, p.fetch a = q.fetch a

namespace Program

variable {p q : Program}

theorem Alike.skipEmpty (h : p.Alike q) (room : Nat) (pc : Int) :
    p.skipEmpty room pc = q.skipEmpty room pc := by
  induction room generalizing pc with
  | zero => rfl
  | succ room ih =>
    unfold Program.skipEmpty
    rw [h pc, ih]

theorem Alike.populated (h : p.Alike q) : p.populated = q.populated := by
  have hfilter : p.filter (fun _ c => !c.isEmpty) = q.filter (fun _ c => !c.isEmpty) := by
    apply AddressMap.ext_get?
    intro a
    rw [Std.ExtTreeMap.getElem?_filter', Std.ExtTreeMap.getElem?_filter']
    have ha := h a
    unfold fetch at ha
    -- an entry with an empty cell is dropped, and is not told apart from a missing one
    cases hp : p[a]? with
    | none =>
      cases hq : q[a]? with
      | none => rfl
      | some c =>
        rw [hp, hq] at ha
        have hc : c = Cell.empty := ha.symm
        simp [hc, Cell.isEmpty, Option.filter]
    | some c =>
      cases hq : q[a]? with
      | none =>
        rw [hp, hq] at ha
        have hc : c = Cell.empty := ha
        simp [hc, Cell.isEmpty, Option.filter]
      | some d =>
        rw [hp, hq] at ha
        have hcd : c = d := ha
        rw [hcd]
  have hlist := congrArg Std.ExtTreeMap.toList hfilter
  rw [Std.ExtTreeMap.toList_filter, Std.ExtTreeMap.toList_filter] at hlist
  exact hlist

theorem Alike.dump (h : p.Alike q) : p.dump = q.dump := by
  unfold Program.dump
  rw [h.populated]

end Program

/-! ## Machines that hold them -/

namespace Machine

/-- The machine with another program store. -/
def holding (m : Machine) (p : Program) : Machine := { m with program := p }

/-- A result with another program store in the machine. -/
def keep {α : Type} (p : Program) (r : α × Machine) : α × Machine := (r.1, r.2.holding p)

theorem unnoticed_holding (p : Program) : Unnoticed (·.holding p) where
  memory _ := rfl
  pc _ := rfl
  steps _ := rfl
  setMemory _ _ := rfl
  setPc _ _ := rfl
  setSteps _ _ := rfl
  state _ := rfl
  setState _ _ := rfl

/-- A step does not tell the stores apart. -/
theorem step_holding {m : Machine} {q : Program} (h : m.program.Alike q) :
    (m.holding q).step = keep q m.step :=
  (unnoticed_holding q).step m (h m.pc).symm

theorem skipEmpty_holding {m : Machine} {q : Program} (h : m.program.Alike q) :
    (m.holding q).skipEmpty = m.skipEmpty.holding q := by
  unfold skipEmpty holding
  rw [← h.skipEmpty]

theorem run_holding {m : Machine} {q : Program} (h : m.program.Alike q) (limit : Int) :
    (m.holding q).run limit = keep q (m.run limit) := by
  unfold run runFor runOnce
  split
  · refine repeatStep_map (f := (·.holding q)) (I := (·.program.Alike q)) (fun m hm => ?_)
      (fun m hm => ?_) limit.toNat (s := m.reset) h
    · rw [skipEmpty_holding hm]
      exact step_holding (m := m.skipEmpty) hm
    · rw [program_step]
      exact hm
  · refine repeatStep_map (f := (·.holding q)) (I := (·.program.Alike q))
      (fun m hm => step_holding hm) (fun m hm => ?_) 1 (s := m.reset) h
    rw [program_step]
    exact hm

theorem preloadFor_holding (n : Nat) {m : Machine} {q : Program} (h : m.program.Alike q) :
    preloadFor n (m.holding q) =
      (preloadFor n m).map fun (count, m) => (count, m.holding q) := by
  induction n generalizing m with
  | zero =>
    have hhalted : (m.holding q).isHalted = m.isHalted := rfl
    have hsame : (m.holding q).fetch (m.holding q).pc = m.fetch m.pc := (h m.pc).symm
    unfold preloadFor
    rw [hhalted, hsame]
    cases m.isHalted <;> cases m.fetch m.pc <;> rfl
  | succ n ih =>
    have hhalted : (m.holding q).isHalted = m.isHalted := rfl
    have hsame : (m.holding q).fetch (m.holding q).pc = m.fetch m.pc := (h m.pc).symm
    unfold preloadFor
    rw [hhalted, hsame]
    cases m.isHalted with
    | true => rfl
    | false =>
      cases m.fetch m.pc with
      | subleq a b target => rfl
      | load v d next =>
        have hrest := ih (m := m.executeLoad v d next) h
        have hload : (m.holding q).executeLoad v d next = (m.executeLoad v d next).holding q := rfl
        simp only [Bool.false_eq_true, if_false]
        rw [hload, hrest]
        cases preloadFor n (m.executeLoad v d next) <;> rfl

/-- With more room for loads, a preload that comes to an end does the same. -/
theorem preloadFor_mono {n k : Nat} (hnk : n ≤ k) {m : Machine} {r : Nat × Machine}
    (h : preloadFor n m = some r) : preloadFor k m = some r := by
  induction n generalizing k m r with
  | zero =>
    unfold preloadFor at h ⊢
    cases hhalted : m.isHalted with
    | true => simpa [hhalted] using h
    | false =>
      cases hcell : m.fetch m.pc with
      | load v d next => simp [hhalted, hcell] at h
      | subleq a b target =>
        cases k <;> simpa [hhalted, hcell] using h
  | succ n ih =>
    rcases k with _ | k
    · omega
    unfold preloadFor at h ⊢
    cases hhalted : m.isHalted with
    | true => simpa [hhalted] using h
    | false =>
      cases hcell : m.fetch m.pc with
      | subleq a b target => simpa [hhalted, hcell] using h
      | load v d next =>
        simp only [hhalted, hcell, Bool.false_eq_true, if_false] at h ⊢
        rcases Option.map_eq_some_iff.mp h with ⟨r', hr', heq⟩
        rw [ih (by omega) hr', Option.map_some, heq]

/-- Loads that lead on to the next address, and end before some address, are all preloaded. -/
theorem exists_preloadFor (n : Nat) {m : Machine} {k : Int}
    (hloads : ∀ x v d next, m.program.fetch x = .load v d next → next = x + 1 ∧ x < k)
    (hroom : k ≤ m.pc + n) : ∃ r, preloadFor n m = some r := by
  induction n generalizing m with
  | zero =>
    unfold preloadFor
    cases m.isHalted with
    | true => exact ⟨_, rfl⟩
    | false =>
      cases hcell : m.fetch m.pc with
      | subleq a b target => exact ⟨_, rfl⟩
      | load v d next =>
        have hlt := (hloads m.pc v d next hcell).2
        omega
  | succ n ih =>
    unfold preloadFor
    cases m.isHalted with
    | true => exact ⟨_, rfl⟩
    | false =>
      cases hcell : m.fetch m.pc with
      | subleq a b target => exact ⟨_, rfl⟩
      | load v d next =>
        have hnext := (hloads m.pc v d next hcell).1
        have hroom' : k ≤ next + n := by
          push_cast at hroom
          omega
        rcases ih (m := m.executeLoad v d next) hloads hroom' with ⟨r, hr⟩
        simp only [Bool.false_eq_true, if_false]
        rw [hr]
        exact ⟨_, rfl⟩

end Machine

namespace Tracer

/-- The traced machine with another program store. -/
def holding (t : Tracer) (p : Program) : Tracer := { t with machine := t.machine.holding p }

theorem program_step (t : Tracer) : t.step.2.machine.program = t.machine.program := by
  unfold step
  split
  · exact t.machine.program_step
  · split
    · exact t.machine.program_step
    · rfl

/-- A step that is traced does not tell the stores apart either. -/
theorem step_holding {t : Tracer} {q : Program} (h : t.machine.program.Alike q) :
    (t.holding q).step = (t.step.1, t.step.2.holding q) := by
  have hcell : (t.machine.holding q).fetch t.machine.pc = t.machine.fetch t.machine.pc :=
    (h t.machine.pc).symm
  have hnext : (t.machine.holding q).next? = t.machine.next? := by
    unfold Machine.next?
    simp only [show (t.machine.holding q).pc = t.machine.pc from rfl, hcell]
    rfl
  have hadvance : ∀ trace, ({ t with machine := t.machine.holding q, trace } : Tracer).advance =
      (({ t with trace } : Tracer).advance.1, ({ t with trace } : Tracer).advance.2.holding q) := by
    intro trace
    unfold advance
    simp only [Machine.step_holding h]
    rfl
  unfold step holding
  simp only [hnext]
  cases (if t.tracing then t.machine.next? else none) with
  | none => exact hadvance t.trace
  | some entry =>
    simp only
    cases entry.render with
    | error cause => rfl
    | ok line => exact hadvance (t.trace.push line)

theorem run_holding {t : Tracer} {q : Program} (h : t.machine.program.Alike q) (limit : Int) :
    (t.holding q).run limit = ((t.run limit).1, (t.run limit).2.holding q) := by
  unfold run
  split
  · refine repeatStep_map (f := (·.holding q)) (I := (·.machine.program.Alike q)) (fun t ht => ?_)
      (fun t ht => ?_) limit.toNat (s := t.reset) h
    · have hskip : (t.holding q).skipEmpty = t.skipEmpty.holding q := by
        unfold skipEmpty holding
        rw [Machine.skipEmpty_holding ht]
      rw [hskip]
      exact step_holding (t := t.skipEmpty) ht
    · rw [program_step]
      exact ht
  · refine repeatStep_map (f := (·.holding q)) (I := (·.machine.program.Alike q))
      (fun t ht => step_holding ht) (fun t ht => ?_) 1 (s := t.reset) h
    rw [program_step]
    exact ht

end Tracer

/-! ## Compiled programs -/

namespace Session

variable {s : Session}

/-- A load of a compiled program leads on to the next address. -/
theorem Sound.load_next (h : s.Sound) {x v a next : Int}
    (hfetch : s.program.fetch x = .load v a next) : next = x + 1 ∧ x < s.pc := by
  rcases h.fetch_load hfetch with ⟨p, hp, hcode, hle, hlt⟩
  have hmem := h.tiles.mem hp
  rcases h.at_of_each hp (Code.each_load hcode p.start) hle hlt with ⟨v', a', hload, _⟩
  rw [hfetch] at hload
  cases hload
  exact ⟨rfl, by omega⟩

/-- All fields of all cells of a compiled program fit into eight bits. -/
theorem Sound.fits (h : s.Sound) (x : Int) : (s.program.fetch x).Fits := by
  have hroom := h.room
  simp only [programLimit] at hroom
  cases hcell : s.program.fetch x with
  | load v a next =>
    have hnext := h.load_next hcell
    rcases h.fetch_load hcell with ⟨p, hp, hcode, hle, hlt⟩
    have hmem := h.tiles.mem hp
    rcases h.at_of_each hp (Code.each_load hcode p.start) hle hlt with ⟨v', a', hload, ha⟩
    rw [hcell] at hload
    cases hload
    have hvalue : (-128 ≤ v ∧ v ≤ 127) ∧ 0 ≤ a ∧ a ≤ 255 := by
      rcases ha with ⟨hzero, hnegOne, rfl⟩ | hdef
      · simp only [zero, negOne] at hzero hnegOne
        split <;> omega
      · rcases h.define_mem hp hdef with ⟨hv, w, hw, rfl⟩
        have hw := h.standard.variable_mem hw
        simp only [zero] at hw
        exact ⟨hv, by omega, by omega⟩
    exact ⟨hvalue.1, hvalue.2, by omega, by omega⟩
  | subleq a b target =>
    by_cases hne : Cell.subleq a b target = .empty
    · cases hne
      simp [Cell.Fits]
    · rcases h.fetch_subleq hcell hne with ⟨p, hp, op, hop, hle, hlt⟩
      have hmem := h.tiles.mem hp
      have hhas := h.at_of_each hp (hop ▸ Code.each_operation op p.start) hle hlt
      rw [hcell] at hhas
      rw [hop] at hmem hlt
      rcases hhas with ⟨ha, hb, htarget⟩
      refine ⟨h.touched_mem hp hop ha, h.touched_mem hp hop hb, ?_⟩
      -- the next cell, another one of the block, or the target that the operation names
      rcases htarget with hnext | ⟨_, hblock | htarget⟩
      · omega
      · omega
      · exact h.target_mem hp hop htarget

/-- A compiled program comes back from its image as it was, but for its empty cells. -/
theorem Sound.alike_readBack (h : s.Sound) : s.program.Alike (Image.readBack s.program) := by
  intro a
  refine (Image.fetch_readBack h.fits ?_ a).symm
  intro x hx
  have hroom := h.room
  simp only [programLimit] at hroom
  rcases h.fetch_cases x with ⟨p, hp, hle, hlt⟩ | ⟨hempty, _⟩
  · have hmem := h.tiles.mem hp
    omega
  · exact hempty

/-- The preload of a compiled program, or of one like it, comes to an end. -/
theorem Sound.exists_preload (h : s.Sound) (m : Machine) :
    ∃ r, (m.holding s.program).preload = some r :=
  Machine.exists_preloadFor s.program.size (m := (m.holding s.program).reset) (k := s.pc)
    (fun _ _ _ _ hfetch => h.load_next hfetch) (by
      have hpc : (m.holding s.program).reset.pc = 0 := rfl
      rw [hpc, h.size]
      omega)

end Session

namespace Session

/-- Every number in the text of a compiled program can be written. -/
theorem Sound.isWritable {s : Session} (h : s.Sound) : s.program.IsWritable := by
  refine Program.isWritable_of_fits fun x c hc => ?_
  have hroom := h.room
  simp only [programLimit] at hroom
  have hmem : 0 ≤ x ∧ x < s.pc := by
    by_contra hout
    rw [h.get?_of_le (by omega)] at hc
    cases hc
  have hfits := h.fits x
  rw [Program.fetch, hc] at hfits
  exact ⟨by omega, hfits⟩

end Session

namespace Machine

/-- What a source text is compiled to and what is read from its image are one and the same to a
machine, whatever is attached to it: a run with any limit ends in the same way and leaves the same
machine but for the store, also if it is traced, and then with the same trace; so does the preload,
which comes to an end; and both stores have the same dump. -/
theorem runs_from_image {source : String} {p : Program}
    (hcompile : Session.compileProgram source = .ok p) (m : Machine) :
    ∃ q, Image.read (Image.render p) = .ok q ∧
      (∀ limit, (m.holding q).run limit = keep q ((m.holding p).run limit)) ∧
      (∀ tracing trace limit, ∃ result t,
        (⟨m.holding p, tracing, trace⟩ : Tracer).run limit = (result, t) ∧
        (⟨m.holding q, tracing, trace⟩ : Tracer).run limit = (result, t.holding q)) ∧
      (∃ count m', (m.holding p).preload = some (count, m') ∧
        (m.holding q).preload = some (count, m'.holding q)) ∧
      ∃ text, p.dump = .ok text ∧ q.dump = .ok text := by
  have hs : ∃ s : Session, s.Sound ∧ s.program = p := by
    unfold Session.compileProgram at hcompile
    have hsound := Session.sound_compile source
    cases hsource : Session.compile {} source with
    | mk s raised =>
      rw [hsource] at hcompile hsound
      cases raised with
      | some cause => cases hcompile
      | none => exact ⟨s, hsound, Except.ok.inj hcompile⟩
  rcases hs with ⟨s, hsound, rfl⟩
  have halike := hsound.alike_readBack
  have hdump := s.program.writtenIf_dump.ok hsound.isWritable
  have hread := Image.read_render s.program
  have hcount := Image.size_readBack s.program
  generalize Image.readBack s.program = q at halike hread hcount
  refine ⟨q, hread, ?_, ?_, ?_, _, hdump, halike.dump ▸ hdump⟩
  · intro limit
    exact run_holding (m := m.holding s.program) halike limit
  · intro tracing trace limit
    exact ⟨_, _, rfl, Tracer.run_holding (t := ⟨m.holding s.program, tracing, trace⟩) halike limit⟩
  · rcases hsound.exists_preload m with ⟨⟨count, m'⟩, hpreload⟩
    refine ⟨count, m', hpreload, ?_⟩
    -- the store that was read has 256 entries, which leaves no less room for loads
    have hroom : s.program.size ≤ q.size := by
      have hsize := hsound.size
      have hlimit := hsound.room
      simp only [programLimit] at hlimit
      omega
    have hmono : preloadFor q.size (m.holding s.program).reset = some (count, m') :=
      preloadFor_mono hroom hpreload
    have hholding := preloadFor_holding q.size (m := (m.holding s.program).reset) halike
    rw [hmono] at hholding
    exact hholding

/-- A program with a constant of -128, a product, and a branch over it. -/
def product : String :=
  "DEF a $80\nDEF b 7\nDEF c 0\nIFGT a b 22\nMUL a b c\nMOV c ioPort"

theorem runs_from_image_product :
    (Session.compile {} product).2 = none ∧
    ∃ q, Image.read (Image.render (Session.compile {} product).1.program) = .ok q ∧
      ∀ limit, ∃ result t,
        (⟨({} : Machine).holding (Session.compile {} product).1.program, true, {}⟩ : Tracer).run
          limit = (result, t) ∧
        (⟨({} : Machine).holding q, true, {}⟩ : Tracer).run limit = (result, t.holding q) := by
  have hraised : (Session.compile {} product).2 = none := by decide +kernel
  rcases runs_from_image (Session.compileProgram_eq hraised) {} with ⟨q, hq, _, htraced, _⟩
  exact ⟨hraised, q, hq, htraced true {}⟩

end Machine

end Subleq
