import Mathlib
import Subleq.Operand
import Subleq.Proofs.Digits

/-!
# Subleq.Proofs.Symbols — symbol tables and resolved operands

* `Allotted` is the invariant of a symbol table that began empty: the variables have good names,
  all different, and their cells lie one below the other; `Allotted.define` keeps it.
* A definition never changes the address of a name that is known (`extends_define`), so that an
  operand that was resolved once is resolved in the same way ever after (`Resolves.mono`).
* What the work on a line comes to does not depend on the warnings noted before it
  (`address_run`, `value_run`).
-/

namespace Subleq

open Layout

/-! ## Work on a line -/

/-- Of what is wrong with the words of a line, no number is part of the text. -/
theorem Issue.isWritable_of_parse {cause : Issue} (h : cause.kind = .parse) : cause.IsWritable := by
  cases cause with
  | define cause => cases cause <;> simp_all [IsWritable, numbers, kind]
  | _ => simp_all [IsWritable, numbers, kind]

theorem Issue.obstacle_of_isWritable {cause : Issue} (h : cause.IsWritable) :
    cause.obstacle = .issue cause := if_pos h

theorem Issue.obstacle_of_parse {cause : Issue} (h : cause.kind = .parse) :
    cause.obstacle = .issue cause := obstacle_of_isWritable (isWritable_of_parse h)

@[simp] theorem Issue.obstacle_literal (cause : LiteralError) :
    (literal cause).obstacle = .issue (literal cause) := obstacle_of_parse rfl

@[simp] theorem Issue.obstacle_unknownVariable (name : String) :
    (unknownVariable name).obstacle = .issue (unknownVariable name) := obstacle_of_parse rfl

theorem Issue.obstacle_eq_issue {cause cause' : Issue} (h : cause.obstacle = .issue cause') :
    cause = cause' ∧ cause.IsWritable := by
  unfold obstacle at h
  split at h
  · next hwritable => exact ⟨Obstacle.issue.inj h, hwritable⟩
  · cases h

namespace LineWork

variable {α β : Type}

theorem run_pure (a : α) (ws : List Issue) : (pure a : LineWork α).run ws = (.ok a, ws) := rfl

theorem run_throw (cause : Obstacle) (ws : List Issue) :
    (throw cause : LineWork α).run ws = (.error cause, ws) := rfl

theorem run_reject (cause : Issue) (ws : List Issue) :
    (reject cause : LineWork α).run ws = (.error cause.obstacle, ws) := rfl

theorem run_warn (cause : Issue) (ws : List Issue) :
    (warn cause).run ws = (.ok (), ws ++ [cause]) := rfl

theorem run_bind (x : LineWork α) (f : α → LineWork β) (ws : List Issue) :
    (x >>= f).run ws = match x.run ws with
      | (.ok a, ws₁) => (f a).run ws₁
      | (.error e, ws₁) => (.error e, ws₁) := by
  change (match x ws with | (r, ws₁) => ExceptT.bindCont f r ws₁ : Id _) = match x ws with
      | (.ok a, ws₁) => (f a).run ws₁
      | (.error e, ws₁) => (.error e, ws₁)
  cases x ws with
  | mk r ws₁ => cases r <;> rfl

/-- Work that succeeds does so part by part. -/
theorem run_bind_ok {x : LineWork α} {f : α → LineWork β} {ws ws' : List Issue} {r : β}
    (h : (x >>= f).run ws = (.ok r, ws')) :
    ∃ a ws₁, x.run ws = (.ok a, ws₁) ∧ (f a).run ws₁ = (.ok r, ws') := by
  rw [run_bind] at h
  cases hx : x.run ws with
  | mk r₁ ws₁ =>
    rw [hx] at h
    cases r₁ with
    | error e => cases (Prod.mk.inj h).1
    | ok a => exact ⟨a, ws₁, rfl, h⟩

end LineWork

/-! ## Names -/

namespace SymbolTable

open LineWork

/-- The invariant of a table that began empty. -/
structure Allotted (t : SymbolTable) : Prop where
  address : ∀ (k : Nat) v, t.variables[k]? = some v → v.address = t.heapStart - k
  distinct : (t.variables.map (·.name)).Nodup
  named : ∀ v ∈ t.variables, nameError? v.name = none
  room : t.variables ≠ [] → (t.size : Int) ≤ t.capacity

theorem allotted_empty (heapStart capacity : Int) : Allotted { heapStart, capacity } :=
  ⟨by simp, by simp, by simp, by simp⟩

theorem find?_mem {t : SymbolTable} {name : String} {v : Variable} (h : t.find? name = some v) :
    v ∈ t.variables ∧ v.name = name :=
  ⟨List.mem_of_find?_eq_some h, by simpa using List.find?_some h⟩

theorem Allotted.eq_of_name {t : SymbolTable} (ht : t.Allotted) {v w : Variable}
    (hv : v ∈ t.variables) (hw : w ∈ t.variables) (h : v.name = w.name) : v = w :=
  List.inj_on_of_nodup_map ht.distinct hv hw h

theorem Allotted.find?_name {t : SymbolTable} (ht : t.Allotted) {v : Variable}
    (hv : v ∈ t.variables) : t.find? v.name = some v := by
  cases h : t.find? v.name with
  | none =>
    have := List.find?_eq_none.mp h v hv
    simp at this
  | some w =>
    obtain ⟨hw, hname⟩ := find?_mem h
    rw [ht.eq_of_name hw hv hname]

/-- No two variables share a cell. -/
theorem Allotted.eq_of_address {t : SymbolTable} (ht : t.Allotted) {v w : Variable}
    (hv : v ∈ t.variables) (hw : w ∈ t.variables) (h : v.address = w.address) : v = w := by
  obtain ⟨i, hi⟩ := List.mem_iff_getElem?.mp hv
  obtain ⟨j, hj⟩ := List.mem_iff_getElem?.mp hw
  have hij : i = j := by
    have := ht.address i v hi
    have := ht.address j w hj
    omega
  subst hij
  exact Option.some.inj (hi.symm.trans hj)

theorem Allotted.address_mem {t : SymbolTable} (ht : t.Allotted) {v : Variable}
    (hv : v ∈ t.variables) : t.heapStart - t.capacity < v.address ∧ v.address ≤ t.heapStart := by
  obtain ⟨i, hi⟩ := List.mem_iff_getElem?.mp hv
  have hroom := ht.room (List.ne_nil_of_mem hv)
  have haddress := ht.address i v hi
  have hlt : i < t.size := (List.getElem?_eq_some_iff.mp hi).1
  omega

/-! ## Definitions -/

/-- What a definition that succeeds does to the table. -/
theorem define_cases {t t' : SymbolTable} {name : String} {value line : Int} {v : Variable}
    (h : t.define name value line = .ok (v, t')) :
    nameError? name = none ∧
    ((∃ old, t.find? name = some old ∧ v = { old with value, line } ∧
        t' = { t with «variables» := replace v t.variables }) ∨
      (t.find? name = none ∧ (t.size : Int) < t.capacity ∧
        v = ⟨name, t.heapPointer, value, line⟩ ∧
        t' = { t with «variables» := t.variables ++ [v] })) := by
  unfold define at h
  cases hname : nameError? name with
  | some cause => simp [hname] at h
  | none =>
    simp only [hname] at h
    refine ⟨rfl, ?_⟩
    cases hfind : t.find? name with
    | some old =>
      simp only [hfind, Except.ok.injEq, Prod.mk.injEq] at h
      obtain ⟨hv, ht'⟩ := h
      subst hv
      exact Or.inl ⟨old, rfl, rfl, ht'.symm⟩
    | none =>
      simp only [hfind] at h
      split at h
      · simp at h
      · next hroom =>
        simp only [Except.ok.injEq, Prod.mk.injEq] at h
        obtain ⟨hv, ht'⟩ := h
        subst hv
        exact Or.inr ⟨rfl, by omega, rfl, ht'.symm⟩

theorem getElem?_replace (v : Variable) (vs : List Variable) (k : Nat) :
    (replace v vs)[k]? = vs[k]?.map fun w => if w.name = v.name then v else w := by
  simp [replace]

theorem map_name_replace (v : Variable) (vs : List Variable) :
    (replace v vs).map (·.name) = vs.map (·.name) := by
  simp only [replace, List.map_map]
  apply List.map_congr_left
  intro w _
  simp only [Function.comp]
  split
  · next h => exact h.symm
  · rfl

/-- Where a variable is replaced, the other names keep theirs. -/
theorem find?_replace (t : SymbolTable) (v : Variable) (name : String) :
    find? { t with «variables» := replace v t.variables } name =
      (t.find? name).map fun w => if w.name = v.name then v else w := by
  have hsame : (fun w : Variable => decide (w.name = name)) ∘
      (fun w => if w.name = v.name then v else w) = fun w => decide (w.name = name) := by
    funext w
    simp only [Function.comp]
    split
    · next hw => rw [hw]
    · rfl
  unfold find? replace
  rw [List.find?_map, hsame]

theorem Allotted.define {t t' : SymbolTable} (ht : t.Allotted) {name : String} {value line : Int}
    {v : Variable} (h : t.define name value line = .ok (v, t')) : t'.Allotted := by
  obtain ⟨hname, ⟨old, hold, hv, rfl⟩ | ⟨hnew, hroom, hv, rfl⟩⟩ := define_cases h
  · -- the name has a cell already, and its entry is replaced in its place
    obtain ⟨hmem, hname'⟩ := find?_mem hold
    have hvname : v.name = name := by
      rw [hv]
      exact hname'
    refine ⟨fun k w hw => ?_, ?_, fun w hw => ?_, fun hne => ?_⟩
    · rw [getElem?_replace] at hw
      obtain ⟨w', hw', hite⟩ := Option.map_eq_some_iff.mp hw
      have haddress := ht.address k w' hw'
      split at hite
      · next hsame =>
        have hold' : w' = old := ht.eq_of_name (List.mem_of_getElem? hw') hmem
          ((hsame.trans hvname).trans hname'.symm)
        rw [← hite, hv, ← hold']
        exact haddress
      · rw [← hite]
        exact haddress
    · simpa only [map_name_replace] using ht.distinct
    · obtain ⟨w', hw', hite⟩ := List.mem_map.mp hw
      split at hite
      · rw [← hite, hvname]
        exact hname
      · rw [← hite]
        exact ht.named w' hw'
    · have := ht.room (List.ne_nil_of_mem hmem)
      simpa [size, replace] using this
  · -- a new name gets the next cell
    have hfresh : name ∉ t.variables.map (·.name) := by
      intro hmem
      obtain ⟨w, hw, hwname⟩ := List.mem_map.mp hmem
      have := List.find?_eq_none.mp hnew w hw
      simp [hwname] at this
    refine ⟨fun k w hw => ?_, ?_, fun w hw => ?_, fun _ => ?_⟩
    · rw [List.getElem?_append] at hw
      split at hw
      · exact ht.address k w hw
      · next hk =>
        obtain ⟨hzero, rfl⟩ : k - t.variables.length = 0 ∧ w = v := by
          rw [List.getElem?_singleton] at hw
          split at hw
          · next hz => exact ⟨hz, (Option.some.inj hw).symm⟩
          · simp at hw
        have hlength : k = t.size := by
          unfold size
          omega
        rw [hv, hlength]
        rfl
    · rw [List.map_append, List.nodup_append]
      refine ⟨ht.distinct, by simp, ?_⟩
      rintro a ha b hb rfl
      simp only [hv, List.map_cons, List.map_nil, List.mem_singleton] at hb
      exact hfresh (hb ▸ ha)
    · rcases List.mem_append.mp hw with hold | hlast
      · exact ht.named w hold
      · rw [List.mem_singleton.mp hlast, hv]
        exact hname
    · simp only [size, List.length_append, List.length_singleton] at hroom ⊢
      push_cast
      omega

/-- What a definition leaves in the table: the variable, those that were there, and the bounds. -/
theorem define_frame {t t' : SymbolTable} {name : String} {value line : Int} {v : Variable}
    (h : t.define name value line = .ok (v, t')) :
    (v ∈ t'.variables ∧ v.name = name) ∧
      (∀ w ∈ t'.variables, w = v ∨ w ∈ t.variables) ∧
      t'.heapStart = t.heapStart ∧ t'.capacity = t.capacity := by
  obtain ⟨_, ⟨old, hold, hv, rfl⟩ | ⟨_, _, hv, rfl⟩⟩ := define_cases h
  · obtain ⟨hmem, hname⟩ := find?_mem hold
    have hvname : v.name = name := by
      rw [hv]
      exact hname
    refine ⟨⟨List.mem_map.mpr ⟨old, hmem, if_pos (hname.trans hvname.symm)⟩, hvname⟩, ?_, rfl, rfl⟩
    intro w hw
    obtain ⟨w', hw', hite⟩ := List.mem_map.mp hw
    split at hite
    · exact Or.inl hite.symm
    · exact Or.inr (hite ▸ hw')
  · refine ⟨⟨by simp, by rw [hv]⟩, fun w hw => ?_, rfl, rfl⟩
    rcases List.mem_append.mp hw with hw | hw
    · exact Or.inr hw
    · exact Or.inl (List.mem_singleton.mp hw)

/-! ## Names that are known -/

/-- A known name is the port's or a variable's. -/
theorem lookup?_cases {t : SymbolTable} {name : String} {a : Int} (h : t.lookup? name = some a) :
    (name = ioPortName ∧ a = ioPort) ∨ ∃ v ∈ t.variables, v.name = name ∧ v.address = a := by
  unfold lookup? at h
  split at h
  · next hname => exact Or.inl ⟨hname, (Option.some.inj h).symm⟩
  · obtain ⟨v, hv, ha⟩ := Option.map_eq_some_iff.mp h
    obtain ⟨hmem, hname⟩ := find?_mem hv
    exact Or.inr ⟨v, hmem, hname, ha⟩

theorem Allotted.lookup?_name {t : SymbolTable} (ht : t.Allotted) {v : Variable}
    (hv : v ∈ t.variables) : t.lookup? v.name = some v.address := by
  have hne : v.name ≠ ioPortName := by
    intro hport
    have := ht.named v hv
    simp [nameError?, hport] at this
  simp [lookup?, hne, ht.find?_name hv]

theorem Allotted.lookup?_define {t t' : SymbolTable} (ht : t.Allotted) {name : String}
    {value line : Int} {v : Variable} (h : t.define name value line = .ok (v, t')) :
    t'.lookup? name = some v.address := by
  obtain ⟨⟨hmem, hname⟩, -⟩ := define_frame h
  rw [← hname]
  exact (ht.define h).lookup?_name hmem

/-- A name that a table knows has the same address in the other one. -/
def Extends (t' t : SymbolTable) : Prop :=
  ∀ name a, t.lookup? name = some a → t'.lookup? name = some a

theorem Extends.refl (t : SymbolTable) : t.Extends t := fun _ _ h => h

theorem Extends.trans {t t' t'' : SymbolTable} (h' : t''.Extends t') (h : t'.Extends t) :
    t''.Extends t := fun name a ha => h' name a (h name a ha)

theorem extends_define {t t' : SymbolTable} {name : String} {value line : Int} {v : Variable}
    (h : t.define name value line = .ok (v, t')) : t'.Extends t := by
  suffices hfind : ∀ other w, t.find? other = some w →
      ∃ w', t'.find? other = some w' ∧ w'.address = w.address by
    intro other a ha
    unfold lookup? at ha ⊢
    split at ha
    · next hport => simp [hport, ha]
    · next hport =>
      obtain ⟨w, hw, rfl⟩ := Option.map_eq_some_iff.mp ha
      obtain ⟨w', hw', haddress⟩ := hfind other w hw
      simp [hport, hw', haddress]
  intro other w hw
  obtain ⟨_, ⟨old, hold, hv, rfl⟩ | ⟨hnew, _, _, rfl⟩⟩ := define_cases h
  · -- the entry of the name is replaced by one with the same cell
    have hmap := t.find?_replace v other
    rw [hw, Option.map_some] at hmap
    refine ⟨_, hmap, ?_⟩
    split
    · next hwname =>
      have hvname : v.name = name := by
        rw [hv]
        exact (find?_mem hold).2
      have : other = name := (find?_mem hw).2.symm.trans (hwname.trans hvname)
      rw [this, hold] at hw
      rw [hv, Option.some.inj hw]
    · rfl
  · refine ⟨w, ?_, rfl⟩
    unfold find? at hw ⊢
    rw [List.find?_append, hw]
    rfl

/-- The invariant of a table in the layout of every program. -/
structure Standard (t : SymbolTable) : Prop extends t.Allotted where
  heapStart : t.heapStart = Layout.heapStart
  capacity : t.capacity = maxVariables

/-- Variables have cells of their own, below the reserved ones. -/
theorem Standard.variable_mem {t : SymbolTable} (ht : t.Standard) {v : Variable}
    (hv : v ∈ t.variables) : 150 ≤ v.address ∧ v.address < zero := by
  have hmem := ht.address_mem hv
  rw [ht.heapStart, ht.capacity] at hmem
  simp only [Layout.heapStart, maxVariables, zero] at hmem ⊢
  omega

theorem Standard.lookup?_mem {t : SymbolTable} (ht : t.Standard) {name : String} {a : Int}
    (h : t.lookup? name = some a) : 0 ≤ a ∧ a ≤ 255 := by
  rcases lookup?_cases h with ⟨_, rfl⟩ | ⟨v, hv, _, rfl⟩
  · decide
  · have hmem := ht.variable_mem hv
    simp only [zero] at hmem
    omega

/-! ## Resolved operands -/

/-- The operand has an address. -/
def Resolves (t : SymbolTable) (token : String) (a : Int) : Prop :=
  (t.address token).outcome.1 = .ok a

/-- The operand is a value for a definition. -/
def Yields (t : SymbolTable) (token : String) (pattern : Int) : Prop :=
  (t.value token).outcome.1 = .ok pattern

/-- A decimal numeral gives the pattern of its number. -/
theorem Yields.eq_signed {t : SymbolTable} {token : String} {pattern : Int}
    {numeral : Text.Decimal} (h : t.Yields token pattern)
    (hparse : Text.Decimal.parse? token.toList = some numeral) :
    pattern = Byte.signed numeral.number := by
  have hliteral := Literal.ofToken?_eq_decimal_iff.mpr hparse
  unfold Yields value outcome at h
  simp only [hliteral, run_bind, decimal] at h
  cases hv : numeral.value with
  | error cause => simp [hv, run_throw] at h
  | ok v =>
    simp only [hv, run_pure, Except.ok.injEq] at h
    rw [(Text.Decimal.value_eq_ok_iff.mp hv).2, h]

/-- Warnings noted before do not matter to the resolution of an operand. -/
theorem address_run (t : SymbolTable) (token : String) (ws : List Issue) :
    (t.address token).run ws =
      ((t.address token).outcome.1, ws ++ (t.address token).outcome.2) := by
  unfold outcome address
  cases Literal.ofToken? token with
  | none => cases t.lookup? token <;> simp [run_pure, run_reject]
  | some l =>
    cases l with
    | decimal numeral =>
      simp only [run_bind, decimal]
      cases numeral.value <;> simp [run_pure, run_throw]
    | binary digits =>
      simp only
      cases Literal.binaryByte digits <;> simp [run_pure, run_reject]
    | hex digits =>
      simp only
      cases Literal.hexByte digits with
      | error cause => simp [run_reject]
      | ok r =>
        obtain ⟨v, _ | cause⟩ := r
        · simp [run_pure]
        · rfl

theorem value_run (t : SymbolTable) (token : String) (ws : List Issue) :
    (t.value token).run ws = ((t.value token).outcome.1, ws ++ (t.value token).outcome.2) := by
  cases h : Literal.ofToken? token with
  | none => simpa only [value, h] using t.address_run token ws
  | some l =>
    cases l with
    | decimal numeral =>
      unfold outcome
      simp only [value, h, run_bind, decimal]
      cases numeral.value <;> simp [run_pure, run_throw]
    | binary digits => simpa only [value, h] using t.address_run token ws
    | hex digits => simpa only [value, h] using t.address_run token ws

/-- The address of an operand that is a literal has nothing to do with the table. -/
theorem address_literal {token : String} (h : (Literal.ofToken? token).isSome)
    (t t' : SymbolTable) : t.address token = t'.address token := by
  obtain ⟨l, hl⟩ := Option.isSome_iff_exists.mp h
  unfold address
  rw [hl]
  cases l <;> rfl

/-- The address of any other operand is that of the name. -/
theorem resolves_name_iff {t : SymbolTable} {token : String} (h : Literal.ofToken? token = none)
    (a : Int) : t.Resolves token a ↔ t.lookup? token = some a := by
  unfold Resolves outcome address
  rw [h]
  cases t.lookup? token <;> simp [run_pure, run_reject]

theorem Resolves.mono {t t' : SymbolTable} (hext : t'.Extends t) {token : String} {a : Int}
    (h : t.Resolves token a) : t'.Resolves token a := by
  cases hl : Literal.ofToken? token with
  | none =>
    rw [resolves_name_iff hl] at h ⊢
    exact hext token a h
  | some l =>
    unfold Resolves at h ⊢
    rwa [address_literal (by simp [hl]) t' t]

theorem Yields.mono {t t' : SymbolTable} (hext : t'.Extends t) {token : String} {p : Int}
    (h : t.Yields token p) : t'.Yields token p := by
  unfold Yields value at h ⊢
  split at h
  · exact h
  · exact Resolves.mono hext h

theorem Resolves.unique {t : SymbolTable} {token : String} {a a' : Int} (h : t.Resolves token a)
    (h' : t.Resolves token a') : a = a' := Except.ok.inj (h.symm.trans h')

/-- A variable's name is an operand with the variable's address. -/
theorem Allotted.resolves_name {t : SymbolTable} (ht : t.Allotted) {v : Variable}
    (hv : v ∈ t.variables) : t.Resolves v.name v.address := by
  have hnone : Literal.ofToken? v.name = none := by
    have hnamed := ht.named v hv
    unfold nameError? at hnamed
    split at hnamed
    · simp at hnamed
    · split at hnamed
      · simp at hnamed
      · simp at hnamed
      · assumption
  rw [resolves_name_iff hnone]
  exact ht.lookup?_name hv

/-- A name that is known is no literal, and as an operand it has its own address. -/
theorem Standard.lookup?_of_resolves {t : SymbolTable} (ht : t.Standard) {token : String} {a : Int}
    (hname : t.contains token = true) (h : t.Resolves token a) : t.lookup? token = some a := by
  rcases Option.isSome_iff_exists.mp hname with ⟨b, hb⟩
  have hresolves : t.Resolves token b := by
    rcases lookup?_cases hb with ⟨rfl, _⟩ | ⟨v, hv, rfl, hv'⟩
    · rw [resolves_name_iff (by cbv)]
      exact hb
    · exact hv' ▸ ht.resolves_name hv
  rw [hb, hresolves.unique h]

/-- Operands are resolved to bytes, where the cells of all names are. -/
theorem Standard.resolves_mem {t : SymbolTable} (ht : t.Standard) {token : String} {a : Int}
    (h : t.Resolves token a) : 0 ≤ a ∧ a ≤ 255 := by
  cases hl : Literal.ofToken? token with
  | none => exact ht.lookup?_mem ((resolves_name_iff hl a).mp h)
  | some l =>
    -- every reader of literals gives a byte, the decimal one by saturating
    unfold Resolves outcome address at h
    rw [hl] at h
    cases l with
    | decimal numeral =>
      simp only [run_bind, decimal] at h
      cases hv : numeral.value with
      | error cause => simp [hv, run_throw] at h
      | ok v =>
        simp only [hv, run_pure, Except.ok.injEq] at h
        exact h ▸ Byte.unsigned_mem v
    | binary digits =>
      simp only at h
      cases hv : Literal.binaryByte digits with
      | error cause => simp [hv, run_reject] at h
      | ok v =>
        simp only [hv, run_pure, Except.ok.injEq] at h
        exact h ▸ Literal.binaryByte_mem hv
    | hex digits =>
      simp only at h
      cases hv : Literal.hexByte digits with
      | error cause => simp [hv, run_reject] at h
      | ok r =>
        obtain ⟨v, w⟩ := r
        have hmem := Literal.hexByte_mem hv
        cases w with
        | none =>
          simp only [hv, run_pure, Except.ok.injEq] at h
          exact h ▸ hmem
        | some cause =>
          simp only [hv, run_bind, run_warn, run_pure, Except.ok.injEq] at h
          exact h ▸ hmem

end SymbolTable

/-! ## Resolved operations -/

namespace Operation

/-- The operations are of one kind, and their operands are related one by one. -/
inductive Rel {ω ω' : Type} (R : ω → ω' → Prop) : Operation ω → Operation ω' → Prop where
  | jump {t t'} (ht : R t t') : Rel R (.jump t) (.jump t')
  | jumpVia {a a'} (ha : R a a') : Rel R (.jumpVia a) (.jumpVia a')
  | move {a b a' b'} (ha : R a a') (hb : R b b') : Rel R (.move a b) (.move a' b')
  | arith {op a b c a' b' c'} (ha : R a a') (hb : R b b') (hc : R c c') :
      Rel R (.arith op a b c) (.arith op a' b' c')
  | branch {cond a b t a' b' t'} (ha : R a a') (hb : R b b') (ht : R t t') :
      Rel R (.branch cond a b t) (.branch cond a' b' t')

theorem Rel.mono {ω ω' : Type} {R S : ω → ω' → Prop} (h : ∀ a b, R a b → S a b)
    {op : Operation ω} {op' : Operation ω'} (hrel : op.Rel R op') : op.Rel S op' := by
  cases hrel with
  | jump ht => exact .jump (h _ _ ht)
  | jumpVia ha => exact .jumpVia (h _ _ ha)
  | move ha hb => exact .move (h _ _ ha) (h _ _ hb)
  | arith ha hb hc => exact .arith (h _ _ ha) (h _ _ hb) (h _ _ hc)
  | branch ha hb ht => exact .branch (h _ _ ha) (h _ _ hb) (h _ _ ht)

open LineWork SymbolTable in
/-- An operation is resolved operand by operand. -/
theorem rel_of_mapM {t : SymbolTable} {op : Operation String} {op' : Operation Int}
    {ws ws' : List Issue} (h : (op.mapM t.address).run ws = (.ok op', ws')) :
    op.Rel t.Resolves op' := by
  have hresolves : ∀ {token a ws ws'}, (t.address token).run ws = (.ok a, ws') →
      t.Resolves token a := by
    intro token a ws ws' hrun
    rw [address_run] at hrun
    exact (Prod.mk.inj hrun).1
  cases op with
  | jump target =>
    obtain ⟨a, _, ha, h⟩ := run_bind_ok h
    cases h
    exact .jump (hresolves ha)
  | jumpVia a =>
    obtain ⟨_, _, ha, h⟩ := run_bind_ok h
    cases h
    exact .jumpVia (hresolves ha)
  | move a b =>
    obtain ⟨_, _, ha, h⟩ := run_bind_ok h
    obtain ⟨_, _, hb, h⟩ := run_bind_ok h
    cases h
    exact .move (hresolves ha) (hresolves hb)
  | arith op a b c =>
    obtain ⟨_, _, ha, h⟩ := run_bind_ok h
    obtain ⟨_, _, hb, h⟩ := run_bind_ok h
    obtain ⟨_, _, hc, h⟩ := run_bind_ok h
    cases h
    exact .arith (hresolves ha) (hresolves hb) (hresolves hc)
  | branch cond a b target =>
    obtain ⟨_, _, ha, h⟩ := run_bind_ok h
    obtain ⟨_, _, hb, h⟩ := run_bind_ok h
    obtain ⟨_, _, ht, h⟩ := run_bind_ok h
    cases h
    exact .branch (hresolves ha) (hresolves hb) (hresolves ht)

end Operation

end Subleq
