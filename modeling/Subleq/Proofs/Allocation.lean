import Mathlib
import Subleq.Proofs.Symbols

/-!
# Subleq.Proofs.Allocation — which cells the variables get

Definitions come in any order: of new names, of names that are known, of names that are not allowed,
and of more names than there is room for. What is known of the table after a row of them is said in
terms of those that succeeded (`accepted`), and it is kept by each one that does
(`Allocated.define`). As the names of the variables are those that were defined, in the order of
their first definition, a name keeps its place among them, and its cell, whatever comes after
(`Allocation.lasting`).
-/

namespace Subleq

open Layout

/-- A definition that is asked for. -/
structure Definition where
  name : String
  value : Int
  line : Int
deriving Repr, DecidableEq

/-- A name that can be defined: it is not that of the port, and it does not look like a literal. -/
def IsGoodName (name : String) : Prop := name ≠ ioPortName ∧ Literal.ofToken? name = none

theorem nameError?_eq_none_iff {name : String} : nameError? name = none ↔ IsGoodName name := by
  unfold nameError? IsGoodName
  by_cases hport : name = ioPortName
  · simp [hport]
  · cases hl : Literal.ofToken? name with
    | none => simp [hport]
    | some l => cases l <;> simp [hport]

/-- The names of a row of definitions, each where it comes first. -/
def namesOf (ds : List Definition) : List String := (ds.map (·.name)).eraseDups

/-- Further definitions only add names at the end. -/
theorem namesOf_prefix (ds ds' : List Definition) : namesOf ds <+: namesOf (ds ++ ds') := by
  unfold namesOf
  rw [List.map_append, List.eraseDups_append]
  exact List.prefix_append _ _

theorem namesOf_concat (ds : List Definition) (d : Definition) : namesOf (ds ++ [d]) =
    if d.name ∈ namesOf ds then namesOf ds else namesOf ds ++ [d.name] := by
  unfold namesOf
  rw [List.map_append, List.eraseDups_append]
  generalize ds.map (·.name) = names
  by_cases hmem : d.name ∈ names <;> simp [List.removeAll, List.eraseDups_cons, hmem]

/-- The definition is the last one of a name in a row. -/
def IsLastOf (ds : List Definition) (name : String) (d : Definition) : Prop :=
  ∃ before after, ds = before ++ d :: after ∧ d.name = name ∧ ∀ e ∈ after, e.name ≠ name

theorem IsLastOf.concat {ds : List Definition} {name : String} {d e : Definition}
    (h : IsLastOf ds name d) (he : e.name ≠ name) : IsLastOf (ds ++ [e]) name d := by
  rcases h with ⟨before, after, rfl, hname, hafter⟩
  refine ⟨before, after ++ [e], by simp, hname, fun x hx => ?_⟩
  rcases List.mem_append.mp hx with hx | hx
  · exact hafter x hx
  · rwa [List.mem_singleton.mp hx]

namespace SymbolTable

/-! ## Rows of definitions -/

/-- The table after a definition is asked for. One that fails changes nothing. -/
def attempt (t : SymbolTable) (d : Definition) : SymbolTable :=
  match t.define d.name d.value d.line with
  | .ok (_, t') => t'
  | .error _ => t

/-- The table after definitions are asked for one after the other. -/
def attempts (t : SymbolTable) (ds : List Definition) : SymbolTable := ds.foldl attempt t

/-- The definitions of a row that succeed. -/
def accepted (t : SymbolTable) : List Definition → List Definition
  | [] => []
  | d :: ds =>
    if (t.define d.name d.value d.line).isOk then d :: accepted (t.attempt d) ds
    else accepted (t.attempt d) ds

theorem accepted_append (t : SymbolTable) (ds ds' : List Definition) :
    t.accepted (ds ++ ds') = t.accepted ds ++ (t.attempts ds).accepted ds' := by
  induction ds generalizing t with
  | nil => rfl
  | cons d ds ih =>
    rw [List.cons_append, accepted, accepted, ih]
    split <;> rfl

/-- What is known of a table in terms of the definitions that succeeded. -/
structure Allocated (heapStart capacity : Int) (done : List Definition) (t : SymbolTable) : Prop
    extends t.Allotted where
  start : t.heapStart = heapStart
  limit : t.capacity = capacity
  names : t.variables.map (·.name) = namesOf done
  /-- A variable is as its last definition has it. -/
  last : ∀ v ∈ t.variables, IsLastOf done v.name ⟨v.name, v.value, v.line⟩

variable {heapStart capacity : Int} {done : List Definition} {t t' : SymbolTable} {v : Variable}
  {d : Definition}

theorem allocated_empty (heapStart capacity : Int) :
    Allocated heapStart capacity [] { heapStart, capacity } :=
  ⟨allotted_empty heapStart capacity, rfl, rfl, rfl, by simp⟩

theorem find?_eq_none_iff {name : String} :
    t.find? name = none ↔ name ∉ t.variables.map (·.name) := by
  simp [find?, List.find?_eq_none]

theorem Allocated.define (h : Allocated heapStart capacity done t)
    (hdefine : t.define d.name d.value d.line = .ok (v, t')) :
    Allocated heapStart capacity (done ++ [d]) t' := by
  have hallotted := h.toAllotted.define hdefine
  rcases define_frame hdefine with ⟨⟨hmem, hname⟩, hvariables, hstart, hlimit⟩
  have hv : v.value = d.value ∧ v.line = d.line := by
    rcases (define_cases hdefine).2 with ⟨old, -, rfl, -⟩ | ⟨-, -, rfl, -⟩
    · exact ⟨rfl, rfl⟩
    · exact ⟨rfl, rfl⟩
  refine ⟨hallotted, hstart.trans h.start, hlimit.trans h.limit, ?_, ?_⟩
  · rw [namesOf_concat, ← h.names]
    rcases (define_cases hdefine).2 with ⟨old, hold, -, rfl⟩ | ⟨hnew, -, -, rfl⟩
    · have hknown : d.name ∈ t.variables.map (·.name) := by
        rcases find?_mem hold with ⟨hmem, hname⟩
        exact List.mem_map.mpr ⟨old, hmem, hname⟩
      rw [if_pos hknown]
      exact map_name_replace v t.variables
    · rw [if_neg (find?_eq_none_iff.mp hnew), List.map_append]
      simp [hname]
  · intro w hw
    by_cases hsame : w = v
    · subst hsame
      exact ⟨done, [], by rw [hname, hv.1, hv.2], rfl, by simp⟩
    · have hold := (hvariables w hw).resolve_left hsame
      -- no other variable has the name
      have hother : d.name ≠ w.name := fun heq =>
        hsame (hallotted.eq_of_name hw hmem (heq.symm.trans hname.symm))
      exact (h.last w hold).concat hother

theorem Allocated.attempt (h : Allocated heapStart capacity done t) (d : Definition) :
    Allocated heapStart capacity (done ++ t.accepted [d]) (t.attempt d) := by
  unfold SymbolTable.attempt
  cases hdefine : t.define d.name d.value d.line with
  | error cause => simpa [accepted, hdefine, Except.isOk, Except.toBool] using h
  | ok r =>
    simpa [accepted, hdefine, Except.isOk, Except.toBool] using h.define (v := r.1) hdefine

theorem Allocated.attempts (h : Allocated heapStart capacity done t) (ds : List Definition) :
    Allocated heapStart capacity (done ++ t.accepted ds) (t.attempts ds) := by
  induction ds generalizing t done with
  | nil => simpa [accepted, SymbolTable.attempts] using h
  | cons d ds ih =>
    have hsplit : t.accepted (d :: ds) = t.accepted [d] ++ (t.attempt d).accepted ds :=
      t.accepted_append [d] ds
    have hrest := ih (h.attempt d)
    rwa [List.append_assoc, ← hsplit] at hrest

/-! ## What can be asked of a table -/

theorem Allocated.length_names (h : Allocated heapStart capacity done t) :
    (namesOf done).length = t.size := by
  rw [← h.names, List.length_map]
  rfl

theorem Allocated.size_le (h : Allocated heapStart capacity done t) (hcapacity : 0 ≤ capacity) :
    (t.size : Int) ≤ capacity := by
  by_cases hnil : t.variables = []
  · simpa [size, hnil] using hcapacity
  · exact h.limit ▸ h.room hnil

theorem Allocated.find?_eq_none_iff (h : Allocated heapStart capacity done t) {name : String} :
    t.find? name = none ↔ name ∉ namesOf done := by
  rw [SymbolTable.find?_eq_none_iff, h.names]

/-- A name has the cell that its place among the names gives it. -/
theorem Allocated.lookup?_getElem (h : Allocated heapStart capacity done t) {k : Nat}
    {name : String} (hk : (namesOf done)[k]? = some name) : t.lookup? name = some (heapStart - k) := by
  rw [← h.names, List.getElem?_map] at hk
  rcases Option.map_eq_some_iff.mp hk with ⟨v, hv, rfl⟩
  rw [h.lookup?_name (List.mem_of_getElem? hv), h.address k v hv, h.start]

theorem Allocated.lookup?_eq (h : Allocated heapStart capacity done t) (name : String) :
    t.lookup? name = if name = ioPortName then some ioPort
      else ((namesOf done).idxOf? name).map fun k : Nat => heapStart - k := by
  by_cases hport : name = ioPortName
  · simp [lookup?, hport]
  rw [if_neg hport]
  cases hk : (namesOf done).idxOf? name with
  | some k =>
    rcases List.idxOf?_eq_some_iff.mp hk with ⟨hlt, hname, -⟩
    exact h.lookup?_getElem (List.getElem?_eq_some_iff.mpr ⟨hlt, hname⟩)
  | none =>
    have hnew := h.find?_eq_none_iff.mpr (List.idxOf?_eq_none_iff.mp hk)
    simp [lookup?, hport, hnew]

/-- How a definition ends: by the first of the reasons for which it can fail, if there is one. -/
theorem Allocated.define_eq (h : Allocated heapStart capacity done t) (hcapacity : 0 ≤ capacity)
    (d : Definition) :
    (∃ cause, ¬IsGoodName d.name ∧
        t.define d.name d.value d.line = .error (.badName cause)) ∨
      (IsGoodName d.name ∧ d.name ∉ namesOf done ∧ ((namesOf done).length : Int) = capacity ∧
        t.define d.name d.value d.line = .error (.heapFull capacity d.name)) ∨
      (IsGoodName d.name ∧ (d.name ∈ namesOf done ∨ ((namesOf done).length : Int) < capacity) ∧
        ∃ r, t.define d.name d.value d.line = .ok r) := by
  have hsize := h.size_le hcapacity
  rw [h.length_names, ← nameError?_eq_none_iff]
  unfold SymbolTable.define
  cases hname : nameError? d.name with
  | some cause => exact Or.inl ⟨cause, nofun, rfl⟩
  | none =>
    right
    cases hfind : t.find? d.name with
    | some old =>
      have hknown : d.name ∈ namesOf done := by
        by_contra hnew
        rw [h.find?_eq_none_iff.mpr hnew] at hfind
        cases hfind
      exact Or.inr ⟨rfl, Or.inl hknown, _, rfl⟩
    | none =>
      have hnew := h.find?_eq_none_iff.mp hfind
      dsimp only
      rw [h.limit]
      by_cases hfull : capacity ≤ t.size
      · rw [if_pos hfull]
        exact Or.inl ⟨rfl, hnew, by omega, rfl⟩
      · rw [if_neg hfull]
        exact Or.inr ⟨rfl, Or.inr (by omega), _, rfl⟩

theorem Allocated.define_iff (h : Allocated heapStart capacity done t) (hcapacity : 0 ≤ capacity)
    (d : Definition) :
    ((∃ r, t.define d.name d.value d.line = .ok r) ↔ IsGoodName d.name ∧
        (d.name ∈ namesOf done ∨ ((namesOf done).length : Int) < capacity)) ∧
      ((∃ cause, t.define d.name d.value d.line = .error (.badName cause)) ↔
        ¬IsGoodName d.name) ∧
      (t.define d.name d.value d.line = .error (.heapFull capacity d.name) ↔ IsGoodName d.name ∧
        d.name ∉ namesOf done ∧ ((namesOf done).length : Int) = capacity) := by
  rcases h.define_eq hcapacity d with ⟨cause, hbad, heq⟩ | ⟨hgood, hnew, hfull, heq⟩ |
    ⟨hgood, hroom, r, heq⟩
  · simp [heq, hbad]
  · simp [heq, hgood, hnew, hfull]
  · have hnot : ¬(d.name ∉ namesOf done ∧ ((namesOf done).length : Int) = capacity) := by
      rintro ⟨hnew, hfull⟩
      rcases hroom with hknown | hlt
      · exact hnew hknown
      · omega
    simp [heq, hgood, hroom, hnot]

/-! ## Allocation -/

/-- What is known of a table after definitions of which some succeeded. -/
structure Allocation (heapStart capacity : Int) (done : List Definition) (t : SymbolTable) : Prop
    where
  /-- The variables are in the order in which their names were first defined. -/
  names : t.variables.map (·.name) = namesOf done
  address : ∀ (k : Nat) v, t.variables[k]? = some v → v.address = heapStart - k
  last : ∀ v ∈ t.variables, IsLastOf done v.name ⟨v.name, v.value, v.line⟩
  apart : (t.variables.map (·.address)).Nodup
  size_le : (t.size : Int) ≤ capacity
  heapPointer : t.heapPointer = heapStart - (namesOf done).length
  lookup : ∀ name, t.lookup? name = if name = ioPortName then some ioPort
    else ((namesOf done).idxOf? name).map fun k : Nat => heapStart - k
  /-- Whatever is defined from now on, a name keeps its cell. -/
  lasting : ∀ (ds : List Definition) (k : Nat) name, (namesOf done)[k]? = some name →
    (t.attempts ds).lookup? name = some (heapStart - k)
  /-- A definition succeeds, or it fails for one of two reasons. -/
  succeeds : ∀ d : Definition, (∃ r, t.define d.name d.value d.line = .ok r) ↔
    IsGoodName d.name ∧ (d.name ∈ namesOf done ∨ ((namesOf done).length : Int) < capacity)
  bad : ∀ d : Definition, (∃ cause, t.define d.name d.value d.line = .error (.badName cause)) ↔
    ¬IsGoodName d.name
  full : ∀ d : Definition,
    t.define d.name d.value d.line = .error (.heapFull capacity d.name) ↔
      IsGoodName d.name ∧ d.name ∉ namesOf done ∧ ((namesOf done).length : Int) = capacity
  kept : ∀ (d : Definition) cause, t.define d.name d.value d.line = .error cause → t.attempt d = t

theorem Allocated.allocation (h : Allocated heapStart capacity done t) (hcapacity : 0 ≤ capacity) :
    Allocation heapStart capacity done t := by
  constructor
  case names => exact h.names
  case address =>
    intro k v hv
    rw [h.address k v hv, h.start]
  case last => exact h.last
  case apart =>
    refine List.Nodup.map_on (fun v hv w hw hvw => ?_) (List.Nodup.of_map _ h.distinct)
    exact h.eq_of_address hv hw hvw
  case size_le => exact h.size_le hcapacity
  case heapPointer => rw [SymbolTable.heapPointer, h.start, h.length_names]
  case lookup => exact h.lookup?_eq
  case lasting =>
    intro ds k name hk
    rcases List.getElem?_eq_some_iff.mp hk with ⟨hlt, rfl⟩
    have hprefix := namesOf_prefix done (t.accepted ds)
    exact (h.attempts ds).lookup?_getElem (List.prefix_iff_getElem?.mp hprefix k hlt)
  case succeeds => exact fun d => (h.define_iff hcapacity d).1
  case bad => exact fun d => (h.define_iff hcapacity d).2.1
  case full => exact fun d => (h.define_iff hcapacity d).2.2
  case kept =>
    intro d cause hfails
    simp only [SymbolTable.attempt, hfails]

/-- Whatever definitions are asked for, and whichever of them fail, the variables lie one below the
other in the order of their names' first definitions; in the default layout their cells are not
among the reserved ones. -/
theorem allocation_attempts (heapStart : Int) {capacity : Int} (hcapacity : 0 ≤ capacity)
    (ds : List Definition) :
    Allocation heapStart capacity (accepted { heapStart, capacity } ds)
        (attempts { heapStart, capacity } ds) ∧
      ∀ v ∈ (attempts {} ds).variables, 150 ≤ v.address ∧ v.address ≤ 249 ∧
        v.address ∉ [zero, tempC, tempB, tempA, negOne, ioPort] := by
  constructor
  · exact ((allocated_empty heapStart capacity).attempts ds).allocation hcapacity
  · have hdefault := (allocated_empty Layout.heapStart maxVariables).attempts ds
    have hstandard : (attempts {} ds).Standard :=
      ⟨hdefault.toAllotted, hdefault.start, hdefault.limit⟩
    intro v hv
    rcases hstandard.variable_mem hv with ⟨hle, hlt⟩
    simp only [zero, tempC, tempB, tempA, negOne, ioPort, List.mem_cons, List.not_mem_nil,
      or_false] at hlt ⊢
    omega

/-- A name, another one that there is no room for, a numeral, and the first name again. -/
def contending : List Definition := [⟨"a", 1, 1⟩, ⟨"b", 2, 2⟩, ⟨"12", 3, 3⟩, ⟨"a", 4, 4⟩]

theorem allocation_attempts_contending : (0 : Int) ≤ 1 ∧
    Allocation 249 1 (accepted { heapStart := 249, capacity := 1 } contending)
      (attempts { heapStart := 249, capacity := 1 } contending) :=
  ⟨by decide, (allocation_attempts 249 (by decide) contending).1⟩

example : (attempts { heapStart := 249, capacity := 1 } contending).variables =
    [⟨"a", 249, 4, 4⟩] := by
  decide

end SymbolTable

end Subleq
