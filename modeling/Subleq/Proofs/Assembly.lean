import Mathlib
import Subleq.Proofs.Cells

/-!
# Subleq.Proofs.Assembly — where labels lead

A block is put together by a row of actions, and the labels that wait travel through it until an
instruction or the end of the block takes them. What assembling comes to is said here in terms of
the row alone (`Assembles`):

1. it fails if a label is announced twice, or else if an instruction branches to a label that is
   never announced;
2. otherwise each instruction becomes one cell, and a label stands for the instructions that were
   added before it was announced, or for all of them if none came before the block was closed
   (`offset`).

The two are tied together by `sites`, which reads the labels off the row: `labels_ofActions` says
that the block has the same ones. Where the block is placed matters only to cells that do not go on
at a fixed address (`assemble_add`).
-/

namespace Subleq

/-- The address in the last field: that of a load's successor, or of a subtraction's target. -/
def Cell.next : Cell → Int
  | load _ _ next => next
  | subleq _ _ target => target

/-- The cell with its last field moved by a distance. -/
def Cell.advance (d : Int) : Cell → Cell
  | load value dest next => load value dest (next + d)
  | subleq a b target => subleq a b (target + d)

namespace Instruction

variable {ℓ : Type}

/-- The label that an instruction branches to. -/
def label? : Instruction ℓ → Option ℓ
  | subleq _ _ (.label name) => some name
  | _ => none

/-- The fixed address that an instruction branches to. -/
def address? : Instruction ℓ → Option Int
  | subleq _ _ (.absolute address) => some address
  | _ => none

/-- What the cell of an instruction is like, in a block that lies from one address up to another. -/
inductive Becomes (first last here : Int) : Instruction ℓ → Cell → Prop where
  | load {value dest : Int} : Becomes first last here (.load value dest)
      (.load value dest (here + 1))
  /-- The branch goes on in the block, or at the cell after it. -/
  | inner {a b next : Int} {target : Target ℓ} (free : ∀ t, target ≠ .absolute t)
      (hle : first ≤ next) (hle' : next ≤ last) :
      Becomes first last here (.subleq a b target) (.subleq a b next)
  | outer {a b t : Int} : Becomes first last here (.subleq a b (.absolute t)) (.subleq a b t)

/-- What becomes of the cell of an instruction when its block is moved by a distance. -/
def shift (d : Int) (i : Instruction ℓ) (cell : Cell) : Cell :=
  match i.address? with
  | some _ => cell
  | none => cell.advance d

end Instruction

namespace Block

variable {ℓ : Type}

/-! ## Rows of actions -/

/-- The instructions of a block in their order. -/
def instructions (b : Block ℓ) : List (Instruction ℓ) := b.entries.map (·.1)

/-- The instruction that an action adds. -/
def Action.instruction? : Action ℓ → Option (Instruction ℓ)
  | .load value dest => some (.load value dest)
  | .subleq a b target => some (.subleq a b target)
  | .clear a => some (.subleq a a .next)
  | .jump target => some (.subleq Layout.zero Layout.zero target)
  | .label _ | .close => none

/-- The label that an action announces. -/
def Action.name? : Action ℓ → Option ℓ
  | .label name => some name
  | _ => none

/-- The instructions that a row of actions adds. -/
def added (actions : List (Action ℓ)) : List (Instruction ℓ) :=
  actions.filterMap Action.instruction?

/-- The labels that a row of actions announces. -/
def announced (actions : List (Action ℓ)) : List ℓ := actions.filterMap Action.name?

/-- The labels that its instructions branch to. -/
def wanted (actions : List (Action ℓ)) : List ℓ := (added actions).filterMap Instruction.label?

/-- A label that waits still does so when the block is closed: no instruction is added before. -/
def waits : List (Action ℓ) → Bool
  | [] => true
  | .close :: _ => true
  | .label _ :: rest => waits rest
  | _ :: _ => false

/-- The number of instructions before the cell of a label that is announced between two rows of
actions. -/
def offset (before rest : List (Action ℓ)) : Nat :=
  if waits rest then (added (before ++ rest)).length else (added before).length

@[simp] theorem added_nil : added ([] : List (Action ℓ)) = [] := rfl

theorem added_cons (action : Action ℓ) (rest : List (Action ℓ)) :
    added (action :: rest) = action.instruction?.toList ++ added rest := by
  unfold added
  cases h : action.instruction? <;> simp [h]

theorem added_append (actions rest : List (Action ℓ)) :
    added (actions ++ rest) = added actions ++ added rest :=
  List.filterMap_append

/-- The label itself does not count. -/
theorem offset_eq (before rest : List (Action ℓ)) (name : ℓ) : offset before rest =
    if waits rest then (added (before ++ .label name :: rest)).length
    else (added before).length := by
  simp [offset, added_append, added_cons, Action.instruction?]

theorem announced_cons (action : Action ℓ) (rest : List (Action ℓ)) :
    announced (action :: rest) = action.name?.toList ++ announced rest := by
  unfold announced
  cases h : action.name? <;> simp [h]

theorem mem_announced {actions : List (Action ℓ)} {name : ℓ} :
    name ∈ announced actions ↔ .label name ∈ actions := by
  simp only [announced, List.mem_filterMap]
  constructor
  · rintro ⟨action, hmem, hname⟩
    cases action <;> cases hname
    exact hmem
  · exact fun hmem => ⟨_, hmem, rfl⟩

@[simp] theorem length_instructions (b : Block ℓ) : b.instructions.length = b.length := by
  simp [instructions, length]

theorem instructions_act (b : Block ℓ) (action : Action ℓ) :
    (b.act action).instructions = b.instructions ++ action.instruction?.toList := by
  cases action <;> simp [act, add, close, instructions, Action.instruction?]

theorem instructions_foldl (actions : List (Action ℓ)) (b : Block ℓ) :
    (actions.foldl act b).instructions = b.instructions ++ added actions := by
  induction actions generalizing b with
  | nil => simp
  | cons action rest ih =>
    rw [List.foldl_cons, ih, instructions_act, added_cons, List.append_assoc]

/-- The block has the instructions that the row adds. -/
theorem instructions_ofActions (actions : List (Action ℓ)) :
    (ofActions actions).instructions = added actions := by
  simpa [ofActions, instructions] using instructions_foldl actions {}

/-! ## Labels -/

/-- The labels that a row of actions announces, each with the number of instructions before its
cell, in a block of `total` instructions of which `here` are there already. -/
def sites (total here : Nat) : List (Action ℓ) → List (ℓ × Nat)
  | [] => []
  | .label name :: rest => (name, if waits rest then total else here) :: sites total here rest
  | .close :: rest => sites total here rest
  | _ :: rest => sites total (here + 1) rest

theorem map_fst_sites (total here : Nat) (actions : List (Action ℓ)) :
    (sites total here actions).map (·.1) = announced actions := by
  induction actions generalizing here with
  | nil => rfl
  | cons action rest ih =>
    rw [announced_cons]
    cases action <;> simpa [sites, Action.name?] using ih _

/-- A label in a row is the first action, or it is announced by one of the others. -/
theorem exists_eq_append_label {action : Action ℓ} {rest : List (Action ℓ)} {name : ℓ}
    {P : List (Action ℓ) → List (Action ℓ) → Prop} :
    (∃ before after, action :: rest = before ++ .label name :: after ∧ P before after) ↔
      (action = .label name ∧ P [] rest) ∨
        ∃ before after, rest = before ++ .label name :: after ∧ P (action :: before) after := by
  constructor
  · rintro ⟨before, after, heq, hP⟩
    cases before with
    | nil =>
      cases heq
      exact Or.inl ⟨rfl, hP⟩
    | cons first before =>
      cases heq
      exact Or.inr ⟨before, after, rfl, hP⟩
  · rintro (⟨rfl, hP⟩ | ⟨before, after, rfl, hP⟩)
    · exact ⟨[], rest, rfl, hP⟩
    · exact ⟨action :: before, after, rfl, hP⟩

/-- The sites of a row are those of the labels that stand between two parts of it. -/
theorem mem_sites {total here : Nat} {actions : List (Action ℓ)} {name : ℓ} {k : Nat} :
    (name, k) ∈ sites total here actions ↔
      ∃ before after, actions = before ++ .label name :: after ∧
        k = if waits after then total else here + (added before).length := by
  induction actions generalizing here with
  | nil => simp [sites]
  | cons action rest ih =>
    rw [exists_eq_append_label]
    simp only [added_cons]
    cases action with
    | label other =>
      simp only [sites, List.mem_cons, Prod.mk.injEq, ih, Action.label.injEq, added_nil,
        List.length_nil, Nat.add_zero, Action.instruction?, Option.toList_none, List.nil_append]
      rw [eq_comm (a := name)]
    | close => simp [sites, ih, Action.instruction?]
    | load | subleq | clear | jump =>
      simp only [sites, ih, reduceCtorEq, false_and, false_or, Action.instruction?,
        Option.toList_some, List.singleton_append, List.length_cons]
      simp only [Nat.add_assoc, Nat.add_comm 1]

/-- The labels that a block gives to its instructions. -/
def entryLabels (b : Block ℓ) : List (ℓ × Nat) :=
  b.entries.zipIdx.flatMap fun ((_, names), i) => names.map (·, i)

/-- An instruction takes all labels that wait. -/
theorem entryLabels_add (b : Block ℓ) (i : Instruction ℓ) :
    entryLabels (b.add i) = entryLabels b ++ b.waiting.map (·, b.length) := by
  simp [entryLabels, add, length, List.zipIdx_append]

/-- Acting on a block adds the labels of the row to those that it has. The ones that wait go where
a label goes that is announced first. -/
theorem labels_foldl (actions : List (Action ℓ)) (b : Block ℓ) {total : Nat}
    (htotal : total = b.length + (added actions).length) :
    (actions.foldl act b).close.labels.Perm (entryLabels b ++ b.endLabels.map (·, total) ++
      (b.waiting.map (·, if waits actions then total else b.length) ++
        sites total b.length actions)) := by
  induction actions generalizing b with
  | nil =>
    simp only [added_nil, List.length_nil, Nat.add_zero] at htotal
    simp [labels, close, entryLabels, length, htotal, sites, waits]
  | cons action rest ih =>
    rw [added_cons] at htotal
    -- all actions that add an instruction do the same to the labels
    have hadd : ∀ i, action.instruction?.toList = [i] →
        (rest.foldl act (b.add i)).close.labels.Perm
          (entryLabels b ++ b.endLabels.map (·, total) ++
            (b.waiting.map (·, b.length) ++ sites total (b.length + 1) rest)) := by
      intro i hi
      have hlength : (b.add i).length = b.length + 1 := by
        simp [add, length]
      have htotal' : total = (b.add i).length + (added rest).length := by
        rw [htotal, hi, hlength, List.singleton_append, List.length_cons]
        omega
      have hrest := ih (b.add i) htotal'
      rw [entryLabels_add, hlength] at hrest
      refine hrest.trans ?_
      simp only [add, List.map_nil, List.nil_append, List.append_assoc]
      exact (List.perm_append_comm_assoc ..).append_left _
    rw [List.foldl_cons]
    cases action with
    | label name =>
      have hwaits : waits (.label name :: rest) = waits rest := rfl
      have hrest := ih (b.act (.label name)) htotal
      rw [hwaits]
      simpa [act, entryLabels, length, sites] using hrest
    | close =>
      have hrest := ih (b.act .close) htotal
      simpa [act, close, entryLabels, length, sites, waits] using hrest
    | load | subleq | clear | jump => exact hadd _ rfl

/-- The labels of a block are those that its row of actions announces. -/
theorem labels_ofActions (actions : List (Action ℓ)) :
    (ofActions actions).close.labels.Perm (sites (added actions).length 0 actions) := by
  have hlabels := labels_foldl actions ({} : Block ℓ) (Nat.zero_add _).symm
  simpa [ofActions, entryLabels, length] using hlabels

theorem names_ofActions (actions : List (Action ℓ)) :
    ((ofActions actions).close.labels.map (·.1)).Perm (announced actions) := by
  rw [← map_fst_sites (added actions).length 0]
  exact (labels_ofActions actions).map _

/-- A label of a block names the cell that it is announced for. -/
theorem mem_labels_ofActions {actions : List (Action ℓ)} {name : ℓ} {k : Nat} :
    (name, k) ∈ (ofActions actions).close.labels ↔
      ∃ before after, actions = before ++ .label name :: after ∧ k = offset before after := by
  rw [(labels_ofActions actions).mem_iff, mem_sites]
  simp only [Nat.zero_add]
  constructor
  · rintro ⟨before, after, rfl, rfl⟩
    exact ⟨before, after, rfl, (offset_eq before after name).symm⟩
  · rintro ⟨before, after, rfl, rfl⟩
    exact ⟨before, after, rfl, offset_eq before after name⟩

/-- No label of a block names a cell further on than the one after the block. -/
theorem le_length_of_mem_labels {b : Block ℓ} {name : ℓ} {k : Nat} (h : (name, k) ∈ b.labels) :
    k ≤ b.length := by
  rcases List.mem_append.mp h with h | h
  · rcases List.mem_flatMap.mp h with ⟨⟨⟨i, names⟩, j⟩, hentry, hname⟩
    have hlt := (List.mem_zipIdx hentry).2.1
    rcases List.mem_map.mp hname with ⟨_, _, heq⟩
    cases heq
    simp only [length]
    omega
  · rcases List.mem_map.mp h with ⟨_, _, heq⟩
    cases heq
    exact Nat.le_refl _

/-- Closing a block that is closed does nothing. -/
theorem close_close (b : Block ℓ) : b.close.close = b.close := by
  simp [close]

/-! ## What assembling comes to -/

/-- Where the instruction at a place goes on, in the block that a row of actions builds. -/
def GoesOn (actions : List (Action ℓ)) (origin : Int) (place : Nat) (next : Int) : Target ℓ → Prop
  | .next => next = origin + place + 1
  | .absolute address => next = address
  | .label name => ∃ before after, actions = before ++ .label name :: after ∧
      next = origin + offset before after

/-- The cell of the instruction at a place. -/
def IsCell (actions : List (Action ℓ)) (origin : Int) (place : Nat) (cell : Cell) :
    Instruction ℓ → Prop
  | .load value dest => cell = .load value dest (origin + place + 1)
  | .subleq a b target => ∃ next, cell = .subleq a b next ∧
      GoesOn actions origin place next target

/-- The result of assembling the block that a row of actions builds. -/
inductive Assembles (actions : List (Action ℓ)) (origin : Int) :
    Except (AssemblyError ℓ) (List Cell) → Prop where
  /-- A label that is announced twice is reported whatever else is wrong. -/
  | duplicate {name : ℓ} (twice : List.Duplicate name (announced actions)) :
      Assembles actions origin (.error (.duplicateLabel name))
  | undefined {name : ℓ} (once : (announced actions).Nodup) (branch : name ∈ wanted actions)
      (missing : name ∉ announced actions) :
      Assembles actions origin (.error (.undefinedLabel name))
  | cells {cs : List Cell} (once : (announced actions).Nodup)
      (known : ∀ name ∈ wanted actions, name ∈ announced actions)
      (length : cs.length = (added actions).length)
      (each : ∀ (place : Nat) i, (added actions)[place]? = some i →
        ∃ cell, cs[place]? = some cell ∧ IsCell actions origin place cell i) :
      Assembles actions origin (.ok cs)

theorem Assembles.isOk_iff {actions : List (Action ℓ)}
    {result : Except (AssemblyError ℓ) (List Cell)} (h : Assembles actions origin result) :
    result.isOk ↔
      (announced actions).Nodup ∧ ∀ name ∈ wanted actions, name ∈ announced actions := by
  cases h with
  | duplicate twice =>
    refine iff_of_false (by simp [Except.isOk, Except.toBool]) fun h => ?_
    exact List.nodup_iff_forall_not_duplicate.mp h.1 _ twice
  | undefined once branch missing =>
    exact iff_of_false (by simp [Except.isOk, Except.toBool]) fun h => missing (h.2 _ branch)
  | cells once known => exact iff_of_true rfl ⟨once, known⟩

/-! ## Names that are given twice -/

variable [DecidableEq ℓ]

theorem duplicate?_eq_none_iff {seen names : List ℓ} :
    duplicate? seen names = none ↔ names.Nodup ∧ ∀ name ∈ names, name ∉ seen := by
  induction names generalizing seen with
  | nil => simp [duplicate?]
  | cons name names ih =>
    unfold duplicate?
    by_cases hseen : name ∈ seen
    · simp [hseen]
    · simp only [List.contains_eq_mem, hseen, decide_false, Bool.false_eq_true, if_false, ih,
        List.mem_cons, not_or, List.nodup_cons, forall_eq_or_imp, not_false_eq_true, true_and]
      constructor
      · rintro ⟨hnodup, hfresh⟩
        have hnot : name ∉ names := fun hmem => (hfresh name hmem).1 rfl
        exact ⟨⟨hnot, hnodup⟩, fun other hother => (hfresh other hother).2⟩
      · rintro ⟨⟨hnot, hnodup⟩, hfresh⟩
        refine ⟨hnodup, fun other hother => ⟨?_, hfresh other hother⟩⟩
        rintro rfl
        exact hnot hother

theorem duplicate_of_duplicate? {seen names : List ℓ} {name : ℓ}
    (h : duplicate? seen names = some name) :
    List.Duplicate name names ∨ name ∈ seen ∧ name ∈ names := by
  induction names generalizing seen with
  | nil => cases h
  | cons first names ih =>
    unfold duplicate? at h
    split at h
    · next hseen =>
      cases h
      exact Or.inr ⟨by simpa using hseen, by simp⟩
    · rcases ih h with hdup | ⟨hseen, hmem⟩
      · exact Or.inl (hdup.duplicate_cons first)
      · rcases List.mem_cons.mp hseen with rfl | hseen
        · exact Or.inl (.cons_mem hmem)
        · exact Or.inr ⟨hseen, List.mem_cons_of_mem first hmem⟩

/-! ## Cells -/

theorem lookup_eq_some_iff_mem {labels : List (ℓ × Nat)} (hnodup : (labels.map (·.1)).Nodup)
    {name : ℓ} {k : Nat} : labels.lookup name = some k ↔ (name, k) ∈ labels := by
  induction labels with
  | nil => simp
  | cons first labels ih =>
    rcases first with ⟨other, j⟩
    rw [List.map_cons, List.nodup_cons] at hnodup
    rw [List.lookup_cons, List.mem_cons, Prod.mk.injEq]
    by_cases hname : name = other
    · subst hname
      have hnot : (name, k) ∉ labels := fun hmem => hnodup.1 (List.mem_map.mpr ⟨_, hmem, rfl⟩)
      simp [hnot, eq_comm]
    · have hbeq : (name == other) = false := by simpa using hname
      simpa [hbeq, hname] using ih hnodup.2

theorem not_mem_of_lookup {labels : List (ℓ × Nat)} {name : ℓ} (h : labels.lookup name = none) :
    name ∉ labels.map (·.1) := by
  rw [List.lookup_eq_none_iff] at h
  intro hmem
  rcases List.mem_map.mp hmem with ⟨first, hfirst, rfl⟩
  simpa using h first hfirst

variable {labels : List (ℓ × Nat)} {origin here d : Int} {i : Instruction ℓ}
  {is : List (Instruction ℓ)} {c : Cell} {cs : List Cell}

/-- The cell of a branch to a label goes on where the label is. -/
theorem cell_label {a b : Int} {name : ℓ}
    (h : cell labels origin here (.subleq a b (.label name)) = .ok c) :
    ∃ k, labels.lookup name = some k ∧ c = .subleq a b (origin + k) := by
  simp only [cell, resolve] at h
  cases hlookup : labels.lookup name with
  | none => simp [hlookup, Except.map] at h
  | some k =>
    simp only [hlookup, Except.map, Except.ok.injEq] at h
    exact ⟨k, rfl, h.symm⟩

/-- An instruction has no cell only if it branches to a label that is missing. -/
theorem error_of_cell {e : AssemblyError ℓ} (h : cell labels origin here i = .error e) :
    ∃ name, i.label? = some name ∧ labels.lookup name = none ∧ e = .undefinedLabel name := by
  match i with
  | .load .. | .subleq _ _ .next | .subleq _ _ (.absolute _) => cases h
  | .subleq a b (.label name) =>
    simp only [cell, resolve] at h
    cases hlookup : labels.lookup name with
    | some k => simp [hlookup, Except.map] at h
    | none =>
      simp only [hlookup, Except.map, Except.error.injEq] at h
      exact ⟨name, rfl, hlookup, h.symm⟩

theorem cells_cons_eq_ok (h : cells labels origin here (i :: is) = .ok cs) :
    ∃ c rest, cell labels origin here i = .ok c ∧ cells labels origin (here + 1) is = .ok rest ∧
      cs = c :: rest := by
  unfold cells at h
  cases hcell : cell labels origin here i with
  | error e => simp [hcell, bind, Except.bind] at h
  | ok c =>
    cases hrest : cells labels origin (here + 1) is with
    | error e => simp [hcell, hrest, bind, Except.bind] at h
    | ok rest =>
      simp only [hcell, hrest, bind, Except.bind, pure, Except.pure, Except.ok.injEq] at h
      exact ⟨c, rest, rfl, rfl, h.symm⟩

theorem cells_cons_eq_error {e : AssemblyError ℓ}
    (h : cells labels origin here (i :: is) = .error e) :
    cell labels origin here i = .error e ∨ cells labels origin (here + 1) is = .error e := by
  unfold cells at h
  cases hcell : cell labels origin here i with
  | error e' => exact Or.inl (by simpa [hcell, bind, Except.bind] using h)
  | ok c =>
    cases hrest : cells labels origin (here + 1) is with
    | ok rest => simp [hcell, hrest, bind, Except.bind, pure, Except.pure] at h
    | error e' => exact Or.inr (by simpa [hcell, hrest, bind, Except.bind] using h)

/-- The cell at each place is that of the instruction. -/
theorem cell_of_cells (h : cells labels origin here is = .ok cs) {k : Nat} (hi : is[k]? = some i) :
    ∃ c, cs[k]? = some c ∧ cell labels origin (here + k) i = .ok c := by
  induction is generalizing here cs k with
  | nil => simp at hi
  | cons first is ih =>
    rcases cells_cons_eq_ok h with ⟨c, rest, hcell, hrest, rfl⟩
    cases k with
    | zero =>
      cases hi
      exact ⟨c, rfl, by simpa using hcell⟩
    | succ k =>
      rcases ih hrest hi with ⟨c', hc', hcell'⟩
      have hadd : here + ((k + 1 : Nat) : Int) = here + 1 + k := by
        push_cast
        omega
      exact ⟨c', hc', hadd ▸ hcell'⟩

/-- Assembling the instructions fails only for a label that is missing. -/
theorem error_of_cells {e : AssemblyError ℓ} (h : cells labels origin here is = .error e) :
    ∃ name, e = .undefinedLabel name ∧ name ∈ is.filterMap Instruction.label? ∧
      name ∉ labels.map (·.1) := by
  induction is generalizing here with
  | nil => cases h
  | cons i is ih =>
    rcases cells_cons_eq_error h with hcell | hrest
    · rcases error_of_cell hcell with ⟨name, hlabel, hlookup, rfl⟩
      exact ⟨name, rfl, List.mem_filterMap.mpr ⟨i, by simp, hlabel⟩, not_mem_of_lookup hlookup⟩
    · rcases ih hrest with ⟨name, he, hname, hmissing⟩
      rcases List.mem_filterMap.mp hname with ⟨i', hi', hlabel⟩
      exact ⟨name, he, List.mem_filterMap.mpr ⟨i', List.mem_cons_of_mem i hi', hlabel⟩, hmissing⟩

/-- Labels that name cells of the block or the one after it lead nowhere else. -/
theorem becomes_of_cell {n : Nat} (hlabels : ∀ name k, (name, k) ∈ labels → k ≤ n)
    (hle : origin ≤ here) (hlt : here < origin + n) (h : cell labels origin here i = .ok c) :
    i.Becomes origin (origin + n) here c := by
  match i with
  | .load value dest =>
    cases h
    exact .load
  | .subleq a b (.absolute t) =>
    cases h
    exact .outer
  | .subleq a b .next =>
    cases h
    exact .inner nofun (by omega) (by omega)
  | .subleq a b (.label name) =>
    rcases cell_label h with ⟨k, hlookup, rfl⟩
    rcases List.lookup_eq_some_iff.mp hlookup with ⟨before, after, rfl, -⟩
    have hk := hlabels name k (by simp)
    exact .inner nofun (by omega) (by omega)

/-- Each cell of a block that is moved is the old one, moved as far unless it goes on at a fixed
address. -/
theorem cell_add (i : Instruction ℓ) : cell labels (origin + d) (here + d) i =
    (cell labels origin here i).map (i.shift d) := by
  have hnext : here + d + 1 = here + 1 + d := by omega
  match i with
  | .load value dest =>
    simp [cell, Except.map, Instruction.shift, Instruction.address?, Cell.advance, hnext]
  | .subleq a b .next =>
    simp [cell, resolve, Except.map, Instruction.shift, Instruction.address?, Cell.advance, hnext]
  | .subleq a b (.absolute t) =>
    simp [cell, resolve, Except.map, Instruction.shift, Instruction.address?]
  | .subleq a b (.label name) =>
    cases hlookup : labels.lookup name with
    | none => simp [cell, resolve, Except.map, hlookup]
    | some k =>
      simp [cell, resolve, Except.map, hlookup, Instruction.shift, Instruction.address?,
        Cell.advance]
      omega

theorem cells_add : cells labels (origin + d) (here + d) is =
    (cells labels origin here is).map (List.zipWith (Instruction.shift d) is) := by
  induction is generalizing here with
  | nil => rfl
  | cons i is ih =>
    have hnext : here + d + 1 = here + 1 + d := by omega
    unfold cells
    rw [cell_add, hnext, ih]
    cases cell labels origin here i with
    | error e => rfl
    | ok c => cases cells labels origin (here + 1) is <;> rfl

/-- Where the cells of a block that was assembled go on. -/
theorem becomes_of_assemble {b : Block ℓ} (h : b.assemble origin = .ok cs) {place : Nat}
    (hi : b.instructions[place]? = some i) :
    ∃ c, cs[place]? = some c ∧ i.Becomes origin (origin + b.length) (origin + place) c := by
  have hlt := (List.getElem?_eq_some_iff.mp hi).1
  rw [length_instructions] at hlt
  simp only [assemble] at h
  split at h
  · cases h
  · rcases cell_of_cells h hi with ⟨c, hc, hcell⟩
    exact ⟨c, hc, becomes_of_cell (fun _ _ => le_length_of_mem_labels (b := b.close)) (by omega)
      (by omega) hcell⟩

/-- A block that is moved. -/
theorem assemble_add (b : Block ℓ) : b.assemble (origin + d) =
    (b.assemble origin).map (List.zipWith (Instruction.shift d) b.instructions) := by
  simp only [assemble]
  cases duplicate? [] (b.close.labels.map (·.1)) with
  | some name => rfl
  | none => exact cells_add

theorem assemble_close (b : Block ℓ) : b.close.assemble origin = b.assemble origin := by
  simp only [assemble, close_close]

/-! ## The block that a row builds -/

/-- The cell of an instruction, where the labels are those of the block. -/
theorem isCell_of_cell {actions : List (Action ℓ)} (once : (announced actions).Nodup)
    {place : Nat} (h : cell (ofActions actions).close.labels origin (origin + place) i = .ok c) :
    IsCell actions origin place c i := by
  match i with
  | .load .. | .subleq _ _ .next | .subleq _ _ (.absolute _) =>
    cases h
    simp [IsCell, GoesOn]
  | .subleq a b (.label name) =>
    rcases cell_label h with ⟨k, hlookup, rfl⟩
    have hnodup := (names_ofActions actions).nodup_iff.mpr once
    rcases mem_labels_ofActions.mp ((lookup_eq_some_iff_mem hnodup).mp hlookup) with
      ⟨before, after, hactions, rfl⟩
    exact ⟨_, rfl, before, after, hactions, rfl⟩

theorem assembles_ofActions (actions : List (Action ℓ)) (origin : Int) :
    Assembles actions origin ((ofActions actions).assemble origin) := by
  have hnames := names_ofActions actions
  simp only [assemble]
  cases hdup : duplicate? [] ((ofActions actions).close.labels.map (·.1)) with
  | some name =>
    have htwice := (duplicate_of_duplicate? hdup).resolve_right (by simp)
    rw [List.duplicate_iff_two_le_count, hnames.count_eq, ← List.duplicate_iff_two_le_count]
      at htwice
    exact .duplicate htwice
  | none =>
    have honce := hnames.nodup_iff.mp (duplicate?_eq_none_iff.mp hdup).1
    change Assembles actions origin (cells _ origin origin (ofActions actions).instructions)
    rw [instructions_ofActions]
    cases hcells : cells (ofActions actions).close.labels origin origin (added actions) with
    | error e =>
      rcases error_of_cells hcells with ⟨name, rfl, hbranch, hmissing⟩
      exact .undefined honce hbranch fun hknown => hmissing (hnames.mem_iff.mpr hknown)
    | ok cs =>
      have heach : ∀ (place : Nat) i, (added actions)[place]? = some i →
          ∃ c, cs[place]? = some c ∧ IsCell actions origin place c i := by
        intro place i hi
        rcases cell_of_cells hcells hi with ⟨c, hc, hcell⟩
        exact ⟨c, hc, isCell_of_cell honce hcell⟩
      refine .cells honce (fun name hname => ?_) (length_of_cells hcells) heach
      -- the cell of a branch tells where its label is announced
      rcases List.mem_filterMap.mp hname with ⟨i, hi, hlabel⟩
      rcases List.mem_iff_getElem?.mp hi with ⟨place, hplace⟩
      rcases heach place i hplace with ⟨c, -, hcell⟩
      match i, hlabel with
      | .subleq _ _ (.label _), rfl =>
        rcases hcell with ⟨next, -, before, after, rfl, -⟩
        exact mem_announced.mpr (by simp)

/-- Whatever the actions are and wherever the block is placed: it can be assembled if and only if
no label is announced twice and none is missing; the result is as its actions say; and assembling
it again, closed as it then is, gives the same at the same place, and at another one the cells
moved by the distance but for fixed addresses. -/
theorem assemble_ofActions (actions : List (Action ℓ)) (origin : Int) :
    (((ofActions actions).assemble origin).isOk ↔ (announced actions).Nodup ∧
        ∀ name ∈ wanted actions, name ∈ announced actions) ∧
      Assembles actions origin ((ofActions actions).assemble origin) ∧
      (ofActions actions).close.assemble origin = (ofActions actions).assemble origin ∧
      ∀ d, (ofActions actions).close.assemble (origin + d) =
        ((ofActions actions).assemble origin).map
          (List.zipWith (Instruction.shift d) (added actions)) := by
  have hassembles := assembles_ofActions actions origin
  refine ⟨hassembles.isOk_iff, hassembles, assemble_close _, fun d => ?_⟩
  rw [assemble_close, assemble_add, instructions_ofActions]

/-- The first label waits when the block is closed, and names the cell after the whole block; the
second one does not. -/
example : (ofActions [.jump (.label "end"), .label "end", .close, .label "here", .clear 7,
      .jump (.label "here")]).assemble 10 =
    .ok [.subleq 250 250 13, .subleq 7 7 12, .subleq 250 250 11] := by
  decide

end Block

end Subleq
