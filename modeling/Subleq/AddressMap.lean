import Std.Data.ExtTreeMap

/-!
# Subleq.AddressMap — sparse stores

The program store and the data store are finite maps from integer addresses. Two maps with the
same entries are equal, and their entries are listed in increasing order of addresses.
-/

namespace Subleq

/-- A finite map from addresses. -/
abbrev AddressMap (α : Type) : Type := Std.ExtTreeMap Int α

namespace AddressMap

variable {α : Type}

/-- The map with the given entries; of two entries at one address the later one counts. -/
def ofEntries (entries : List (Int × α)) : AddressMap α :=
  entries.foldl (fun m (address, a) => m.insert address a) ∅

/-- Looking up after writing: the written address has the new entry, all others are as before. -/
theorem get?_insert (m : AddressMap α) (k a : Int) (x : α) :
    (m.insert k x)[a]? = if k = a then some x else m[a]? := by
  rw [Std.ExtTreeMap.getElem?_insert]
  simp only [Std.LawfulEqOrd.compare_eq_iff_eq]

/-- Looking up after writing at several addresses what is a function of the address. -/
theorem get?_foldl_insert (f : Int → α) (as : List Int) (m : AddressMap α) (x : Int) :
    (as.foldl (fun m a => m.insert a (f a)) m)[x]? = if x ∈ as then some (f x) else m[x]? := by
  induction as generalizing m with
  | nil => simp
  | cons a as ih =>
    rw [List.foldl_cons, ih, get?_insert]
    by_cases hx : x ∈ as
    · simp [hx]
    · by_cases hax : a = x
      · simp [hax]
      · simp [hx, hax, Ne.symm hax]

/-- The map in which the value at each of some addresses is a function of the address. -/
theorem get?_ofEntries_map (f : Int → α) (as : List Int) (x : Int) :
    (ofEntries (as.map fun a => (a, f a)))[x]? = if x ∈ as then some (f x) else none := by
  rw [ofEntries, List.foldl_map, get?_foldl_insert]
  simp

/-- Maps are equal when they agree at every address. -/
theorem ext_get? {m n : AddressMap α} (h : ∀ a : Int, m[a]? = n[a]?) : m = n :=
  Std.ExtTreeMap.ext_getElem? h

end AddressMap

end Subleq
