import Mathlib
import Subleq.Files

/-!
# Subleq.Proofs.FileTree — writing and reading files

What is written under a path is read again under it (`Files.read_write`), and no other node of the
tree is touched (`Files.find?_put`).

Some commands clean a path before they use it, others do not. Where the path as it stands leads to a
file, the clean path leads to the same one (`Files.read_clean`): cleaning takes away what does not
lead anywhere, and a path to a file has something left. That the clean path can be used at all,
although paths with a null character and very long ones cannot, is because its characters are among
those of the path itself.
-/

namespace Subleq

/-! ## Cutting paths -/

namespace Path

variable {cs : List Char} {xs ys : List (List Char)}

theorem split_ne_nil (cs : List Char) : split cs ≠ [] := by
  cases cs with
  | nil => simp [split]
  | cons c cs =>
    unfold split
    split
    · simp
    · split <;> simp

/-- Joining the parts gives the path again. -/
theorem intercalate_split (cs : List Char) : ['/'].intercalate (split cs) = cs := by
  induction cs with
  | nil => rfl
  | cons c cs ih =>
    unfold split
    by_cases hc : c = '/'
    · rw [if_pos hc, List.intercalate_cons_of_ne_nil (split_ne_nil cs), ih, hc]
      rfl
    · rw [if_neg hc]
      cases hsplit : split cs with
      | nil => exact absurd hsplit (split_ne_nil cs)
      | cons part parts =>
        rw [hsplit] at ih
        cases parts with
        | nil => simpa using ih
        | cons next parts => simpa using ih

theorem split_append {x : List Char} (hx : '/' ∉ x) (cs : List Char) :
    split (x ++ '/' :: cs) = x :: split cs := by
  induction x with
  | nil => simp [split]
  | cons c x ih =>
    have hc : c ≠ '/' := fun h => hx (by simp [h])
    have hrest := ih fun h => hx (List.mem_cons_of_mem c h)
    simp [split, hc, hrest]

theorem split_of_not_mem {x : List Char} (hx : '/' ∉ x) : split x = [x] := by
  induction x with
  | nil => rfl
  | cons c x ih =>
    have hc : c ≠ '/' := fun h => hx (by simp [h])
    have hrest := ih fun h => hx (List.mem_cons_of_mem c h)
    simp [split, hc, hrest]

/-- Parts without slashes in them are found again in the path that they are joined to. -/
theorem split_intercalate (hne : xs ≠ []) (hxs : ∀ x ∈ xs, '/' ∉ x) :
    split (['/'].intercalate xs) = xs := by
  induction xs with
  | nil => exact absurd rfl hne
  | cons x xs ih =>
    have hx := hxs x (by simp)
    cases xs with
    | nil => simpa using split_of_not_mem hx
    | cons y ys =>
      have hrest := ih (by simp) fun z hz => hxs z (List.mem_cons_of_mem x hz)
      rw [List.intercalate_cons_cons, List.append_assoc, List.singleton_append, split_append hx,
        hrest]

theorem not_mem_of_mem_split {x : List Char} (hx : x ∈ split cs) : '/' ∉ x := by
  induction cs generalizing x with
  | nil =>
    rw [split, List.mem_singleton] at hx
    simp [hx]
  | cons c cs ih =>
    unfold split at hx
    by_cases hc : c = '/'
    · rw [if_pos hc] at hx
      rcases List.mem_cons.mp hx with rfl | hx
      · simp
      · exact ih hx
    · rw [if_neg hc] at hx
      cases hsplit : split cs with
      | nil => exact absurd hsplit (split_ne_nil cs)
      | cons part parts =>
        rw [hsplit] at hx ih
        rcases List.mem_cons.mp hx with rfl | hx
        · have hpart := ih (List.mem_cons_self ..)
          simp [hpart, Ne.symm hc]
        · exact ih (List.mem_cons_of_mem part hx)

/-- Leaving parts out leaves characters out. -/
theorem intercalate_sublist (h : xs.Sublist ys) :
    (['/'].intercalate xs).Sublist (['/'].intercalate ys) := by
  induction h with
  | slnil => exact .slnil
  | @cons xs ys y _ ih =>
    cases ys with
    | nil => simpa using ih.trans (List.nil_sublist _)
    | cons z zs =>
      rw [List.intercalate_cons_cons, List.append_assoc]
      exact ih.trans ((List.sublist_append_right _ _).trans (List.sublist_append_right _ _))
  | @cons_cons xs ys x hsub ih =>
    cases xs with
    | nil =>
      cases ys with
      | nil => exact .refl _
      | cons z zs =>
        rw [List.intercalate_singleton, List.intercalate_cons_cons, List.append_assoc]
        exact List.sublist_append_left _ _
    | cons w ws =>
      cases ys with
      | nil => cases hsub
      | cons z zs =>
        rw [List.intercalate_cons_cons, List.intercalate_cons_cons]
        exact (List.Sublist.refl _).append ih

/-- What is joined from parts without slashes, none of them empty, neither begins nor ends with a
slash. -/
theorem ends_intercalate (hne : xs ≠ []) (hxs : ∀ x ∈ xs, '/' ∉ x ∧ x ≠ []) :
    (['/'].intercalate xs).head? ≠ some '/' ∧ (['/'].intercalate xs).getLast? ≠ some '/' ∧
      ['/'].intercalate xs ≠ [] := by
  induction xs with
  | nil => exact absurd rfl hne
  | cons x xs ih =>
    rcases hxs x (by simp) with ⟨hslash, hx⟩
    have hfirst : ∀ rest, (x ++ rest).head? ≠ some '/' := by
      intro rest heq
      rw [List.head?_append_of_ne_nil x hx] at heq
      exact hslash (List.mem_of_mem_head? heq)
    cases xs with
    | nil =>
      refine ⟨by simpa using hfirst [], fun heq => ?_, by simpa using hx⟩
      rw [List.intercalate_singleton] at heq
      exact hslash (List.mem_of_getLast? heq)
    | cons y ys =>
      rcases ih (by simp) fun z hz => hxs z (List.mem_cons_of_mem x hz) with ⟨-, hlast, hrest⟩
      rw [List.intercalate_cons_cons]
      refine ⟨by rw [List.append_assoc]; exact hfirst _, ?_, by simp⟩
      rw [List.getLast?_append_of_ne_nil _ hrest]
      exact hlast

/-! ## Clean paths -/

/-- The steps of a path, as rows of characters. -/
def stepsOf (cs : List Char) : List (List Char) := (split cs).filter (· ≠ [])

/-- The parts of a path that lead somewhere, as rows of characters. -/
def partsOf (cs : List Char) : List (List Char) := (stepsOf cs).filter (· ≠ ['.'])

theorem toList_filter (ps : List String) (part : String) :
    (ps.filter (· ≠ part)).map String.toList =
      (ps.map String.toList).filter (· ≠ part.toList) := by
  rw [List.filter_map]
  congr 1
  apply List.filter_congr
  intro p _
  simp [String.toList_inj]

theorem toList_steps (path : String) : (steps path).map String.toList = stepsOf path.toList := by
  unfold steps stepsOf
  rw [toList_filter, List.map_map]
  simp [Function.comp_def]

theorem toList_parts (path : String) : (parts path).map String.toList = partsOf path.toList := by
  unfold parts partsOf
  rw [toList_filter, toList_steps]
  rfl

theorem stepsOf_slash (cs : List Char) : stepsOf ('/' :: cs) = stepsOf cs := by
  simp [stepsOf, split]

theorem partsOf_slash (cs : List Char) : partsOf ('/' :: cs) = partsOf cs := by
  rw [partsOf, stepsOf_slash, partsOf]

theorem mem_partsOf {x : List Char} (hx : x ∈ partsOf cs) : '/' ∉ x ∧ x ≠ [] := by
  have hsteps := (List.mem_filter.mp hx).1
  rcases List.mem_filter.mp hsteps with ⟨hsplit, hne⟩
  exact ⟨not_mem_of_mem_split hsplit, by simpa using hne⟩

/-- The parts that lead somewhere are all the steps of the path that they are joined to. -/
theorem stepsOf_intercalate (cs : List Char) :
    stepsOf (['/'].intercalate (partsOf cs)) = partsOf cs := by
  have hmem : ∀ x ∈ partsOf cs, '/' ∉ x ∧ x ≠ [] := fun x hx => mem_partsOf hx
  generalize partsOf cs = xs at hmem
  cases xs with
  | nil => rfl
  | cons x xs =>
    rw [stepsOf, split_intercalate (by simp) fun y hy => (hmem y hy).1, List.filter_eq_self]
    intro y hy
    simpa using (hmem y hy).2

theorem partsOf_sublist (cs : List Char) : (['/'].intercalate (partsOf cs)).Sublist cs := by
  have hsub : (partsOf cs).Sublist (split cs) := List.filter_sublist.trans List.filter_sublist
  have hchars := intercalate_sublist hsub
  rw [intercalate_split] at hchars
  exact hchars

/-- A path begins with the slashes of its root, which what follows does not depend on. -/
theorem root_cases (path : String) :
    (root path = "" ∧ path.toList.head? ≠ some '/') ∨
    (∃ cs, path.toList = '/' :: cs ∧ root path = "/") ∨
    (∃ cs, path.toList = '/' :: '/' :: cs ∧ root path = "//") := by
  unfold root
  split
  · next h => exact .inr (.inl ⟨_, h, rfl⟩)
  · next h => exact .inr (.inr ⟨_, h, rfl⟩)
  · next h => exact .inr (.inl ⟨_, h, rfl⟩)
  · next hnone =>
    refine .inl ⟨rfl, ?_⟩
    cases hcs : path.toList with
    | nil => simp
    | cons c cs =>
      simp only [List.head?_cons, ne_eq, Option.some.injEq]
      rintro rfl
      exact hnone cs hcs

theorem root_eq_empty_iff (path : String) : root path = "" ↔ path.toList.head? ≠ some '/' := by
  rcases root_cases path with ⟨hroot, hhead⟩ | ⟨cs, hcs, hroot⟩ | ⟨cs, hcs, hroot⟩
  · simp [hroot, hhead]
  · simp [hroot, hcs]
  · simp [hroot, hcs]

variable {path : String}

theorem toList_clean (hparts : parts path ≠ []) : (clean path).toList =
    (root path).toList ++ ['/'].intercalate (partsOf path.toList) := by
  unfold clean join
  rw [if_neg fun h => hparts h.2, String.toList_append, String.toList_intercalate, toList_parts]
  rfl

theorem partsOf_ne_nil (hparts : parts path ≠ []) : partsOf path.toList ≠ [] := by
  rw [← toList_parts]
  simpa using hparts

/-- All that is left of a path by cleaning it. -/
theorem steps_clean (hparts : parts path ≠ []) : steps (clean path) = parts path := by
  have hsame : (steps (clean path)).map String.toList = (parts path).map String.toList := by
    rw [toList_steps, toList_clean hparts, toList_parts]
    rcases root_cases path with ⟨hroot, _⟩ | ⟨cs, _, hroot⟩ | ⟨cs, _, hroot⟩ <;> rw [hroot]
    · exact stepsOf_intercalate _
    · exact (stepsOf_slash _).trans (stepsOf_intercalate _)
    · exact (stepsOf_slash _).trans ((stepsOf_slash _).trans (stepsOf_intercalate _))
  exact List.map_injective_iff.mpr (fun _ _ => String.toList_inj.mp) hsame

theorem clean_sublist (hparts : parts path ≠ []) : (clean path).toList.Sublist path.toList := by
  rw [toList_clean hparts]
  rcases root_cases path with ⟨hroot, _⟩ | ⟨cs, hcs, hroot⟩ | ⟨cs, hcs, hroot⟩ <;> rw [hroot]
  · exact partsOf_sublist _
  · rw [hcs, partsOf_slash]
    exact (partsOf_sublist cs).cons_cons '/'
  · rw [hcs, partsOf_slash, partsOf_slash]
    exact ((partsOf_sublist cs).cons_cons '/').cons_cons '/'

theorem root_clean_eq_empty_iff (hparts : parts path ≠ []) :
    root (clean path) = "" ↔ root path = "" := by
  have hends := ends_intercalate (partsOf_ne_nil hparts) fun x hx => mem_partsOf hx
  rw [root_eq_empty_iff, toList_clean hparts]
  rcases root_cases path with ⟨hroot, _⟩ | ⟨cs, _, hroot⟩ | ⟨cs, _, hroot⟩ <;> rw [hroot]
  · simpa using hends.1
  · simp
  · simp

theorem endsInSlash_clean (hparts : parts path ≠ []) : endsInSlash (clean path) = false := by
  rcases ends_intercalate (partsOf_ne_nil hparts) fun x hx => mem_partsOf hx with
    ⟨-, hlast, hne⟩
  unfold endsInSlash
  rw [toList_clean hparts, List.getLast?_append_of_ne_nil _ hne]
  simpa using hlast

theorem clean_ne_empty (hparts : parts path ≠ []) : clean path ≠ "" := by
  have hends := ends_intercalate (partsOf_ne_nil hparts) fun x hx => mem_partsOf hx
  rw [ne_eq, ← String.toList_inj, toList_clean hparts]
  simp [hends.2.2]

/-- Leaving characters out makes a text no longer. -/
theorem utf8Len_sublist {cs ds : List Char} (h : cs.Sublist ds) :
    String.utf8Len cs ≤ String.utf8Len ds := by
  induction h with
  | slnil => exact Nat.le_refl _
  | cons c _ ih =>
    rw [String.utf8Len_cons]
    omega
  | cons_cons c _ ih =>
    rw [String.utf8Len_cons, String.utf8Len_cons]
    omega

theorem utf8ByteSize_eq (s : String) : s.utf8ByteSize = String.utf8Len s.toList := by
  rw [← String.utf8ByteSize_ofList, String.ofList_toList]

end Path

/-! ## Following paths -/

namespace Files

variable {fs fs' : Files} {place start : Place} {steps : List String} {path text : String}

theorem lookup_filter_ne {place q : Place} (hq : q ≠ place) (nodes : List (Place × FileNode)) :
    (nodes.filter (·.1 ≠ place)).lookup q = nodes.lookup q := by
  induction nodes with
  | nil => rfl
  | cons entry nodes ih =>
    by_cases hentry : entry.1 = place
    · have hother : (q == entry.1) = false := by simpa [hentry] using hq
      rw [List.filter_cons_of_neg (by simpa using hentry), ih, List.lookup_cons, hother]
    · rw [List.filter_cons_of_pos (by simpa using hentry), List.lookup_cons, List.lookup_cons, ih]

theorem find?_put (fs : Files) (place : Place) (node : FileNode) (q : Place) :
    (fs.put place node).find? q =
      if q.isAbove then some .directory else if q = place then some node else fs.find? q := by
  unfold find? put
  by_cases habove : q.isAbove
  · simp only [habove, if_true]
  · simp only [habove, Bool.false_eq_true, if_false, List.lookup_append]
    by_cases hq : q = place
    · subst hq
      have hnone : (fs.nodes.filter (·.1 ≠ q)).lookup q = none := by
        rw [List.lookup_eq_none_iff]
        intro entry hentry
        have hother : entry.1 ≠ q := by simpa using (List.mem_filter.mp hentry).2
        exact bne_iff_ne.mpr (Ne.symm hother)
      rw [hnone, if_pos rfl]
      simp
    · have hother : (q == place) = false := by simpa using hq
      rw [lookup_filter_ne hq, if_neg hq, List.lookup_cons, hother]
      simp

/-- The place that one step leads to from a directory. -/
def enter (place : Place) (step : String) : Except FileError.Kind Place :=
  if step = "." then .ok place
  else if step = ".." then .ok place.above
  else if 255 < step.utf8ByteSize then .error .nameTooLong
  else .ok (place ++ [step])

theorem follow_cons_eq_ok_iff {step : String} {q : Place} :
    fs.follow place (step :: steps) = .ok q ↔ fs.find? place = some .directory ∧
      ∃ next, enter place step = .ok next ∧ fs.follow next steps = .ok q := by
  rw [follow]
  cases fs.find? place with
  | none => simp
  | some node =>
    cases node with
    | file content => simp
    | directory =>
      unfold enter
      by_cases hdot : step = "."
      · simp [hdot]
      · by_cases hup : step = ".."
        · simp [hup]
        · by_cases hlong : 255 < step.utf8ByteSize <;> simp [hdot, hup, hlong]

/-- A path that leads through directories leads on the same way where some other node is put. -/
theorem follow_put {node : FileNode} (hplace : fs.find? place ≠ some .directory)
    {q : Place} (h : fs.follow start steps = .ok q) :
    (fs.put place node).follow start steps = .ok q := by
  induction steps generalizing start with
  | nil => exact h
  | cons step steps ih =>
    rcases follow_cons_eq_ok_iff.mp h with ⟨hdirectory, next, hnext, hrest⟩
    refine follow_cons_eq_ok_iff.mpr ⟨?_, next, hnext, ih hrest⟩
    -- the path passes directories only, and where the node is put there is none
    rw [find?_put]
    split
    · rfl
    · split
      · next heq => exact absurd (heq ▸ hdirectory) hplace
      · exact hdirectory

/-- Steps that stay where they are may be left out. -/
theorem follow_filter {q : Place} (h : fs.follow start steps = .ok q) :
    fs.follow start (steps.filter (· ≠ ".")) = .ok q := by
  induction steps generalizing start with
  | nil => exact h
  | cons step steps ih =>
    rcases follow_cons_eq_ok_iff.mp h with ⟨hdirectory, next, hnext, hrest⟩
    by_cases hdot : step = "."
    · rw [enter, if_pos hdot] at hnext
      cases hnext
      rw [List.filter_cons_of_neg (by simpa using hdot)]
      exact ih hrest
    · rw [List.filter_cons_of_pos (by simpa using hdot)]
      exact follow_cons_eq_ok_iff.mpr ⟨hdirectory, next, hnext, ih hrest⟩

/-- A path that goes nowhere from its end can only lead to a directory. -/
theorem find?_of_follow_dot {q : Place} (h : fs.follow start (steps ++ ["."]) = .ok q) :
    fs.find? q = some .directory := by
  induction steps generalizing start with
  | nil =>
    rcases follow_cons_eq_ok_iff.mp h with ⟨hdirectory, next, hnext, hrest⟩
    rw [enter, if_pos rfl] at hnext
    cases hnext
    cases hrest
    exact hdirectory
  | cons step steps ih =>
    rcases follow_cons_eq_ok_iff.mp h with ⟨-, next, -, hrest⟩
    exact ih hrest

/-- What is known of a path that leads to a place. -/
theorem locateBy_eq_ok_iff : fs.locateBy path steps = .ok place ↔
    Char.ofNat 0 ∉ path.toList ∧ path ≠ "" ∧ path.utf8ByteSize < 4096 ∧
      fs.follow (Place.origin path) steps = .ok place := by
  unfold locateBy
  by_cases hnull : Char.ofNat 0 ∈ path.toList
  · simp [hnull]
  · by_cases hempty : path = ""
    · simp [hempty]
    · by_cases hlong : 4096 ≤ path.utf8ByteSize
      · simp [hnull, hempty, hlong]
      · simp [hnull, hempty, hlong, Nat.not_le.mp hlong]

/-! ## Reading -/

theorem read_eq_ok_iff {content : Content} : fs.read path = .ok content ↔
    ∃ place, fs.locate path = .ok place ∧ fs.find? place = some (.file content) ∧
      Path.endsInSlash path = false := by
  unfold read
  cases hlocate : fs.locate path with
  | error kind => simp
  | ok place =>
    simp only [Except.ok.injEq, exists_eq_left']
    cases fs.find? place with
    | none => simp
    | some node =>
      cases node with
      | directory => simp
      | file content' =>
        cases Path.endsInSlash path <;> simp

/-- Where the path as it stands leads to a file, the clean path leads to it too. -/
theorem read_clean {content : Content} (h : fs.read path = .ok content) :
    fs.read (Path.clean path) = .ok content := by
  rcases read_eq_ok_iff.mp h with ⟨place, hlocate, hfile, -⟩
  rcases locateBy_eq_ok_iff.mp hlocate with ⟨hnull, -, hlong, hfollow⟩
  have hfollow' := follow_filter hfollow
  have hparts : Path.parts path ≠ [] := by
    intro hnone
    -- without parts the path stays at its origin, which is a directory
    have hstay : fs.follow (Place.origin path) (Path.parts path) = .ok place := hfollow'
    rw [hnone] at hstay
    cases hstay
    have habove : (Place.origin path).isAbove = true := by
      unfold Place.origin
      split <;> rfl
    rw [find?, if_pos habove] at hfile
    cases hfile
  have horigin : Place.origin (Path.clean path) = Place.origin path := by
    simp only [Place.origin, Path.root_clean_eq_empty_iff hparts]
  -- the clean path has no character that the path has not, and it is no longer
  have hsub := Path.clean_sublist hparts
  refine read_eq_ok_iff.mpr ⟨place, locateBy_eq_ok_iff.mpr ⟨?_, ?_, ?_, ?_⟩, hfile, ?_⟩
  · intro hmem
    exact hnull (hsub.subset hmem)
  · exact Path.clean_ne_empty hparts
  · rw [Path.utf8ByteSize_eq] at hlong ⊢
    exact Nat.lt_of_le_of_lt (Path.utf8Len_sublist hsub) hlong
  · rw [horigin, Path.steps_clean hparts]
    exact hfollow'
  · exact Path.endsInSlash_clean hparts

/-! ## Writing -/

/-- A file that can be written has a place, where there is no directory, and to which the path leads
as it stands. -/
theorem openForWriting_eq_ok {old : Option Content}
    (h : fs.openForWriting path = .ok (place, old)) :
    fs.locate path = .ok place ∧ fs.find? place ≠ some .directory ∧
      Path.endsInSlash path = false := by
  unfold openForWriting at h
  simp only at h
  split at h
  · cases h
  · next q hlocate =>
    have hnot : fs.find? q ≠ some .directory ∧ q = place := by
      split at h
      · next hnone =>
        cases h
        exact ⟨by simp [hnone], rfl⟩
      · cases h
      · next hfile =>
        cases h
        exact ⟨by simp [hfile], rfl⟩
    rcases hnot with ⟨hnot, rfl⟩
    cases hslash : Path.endsInSlash path with
    | false =>
      rw [hslash] at hlocate
      exact ⟨hlocate, hnot, rfl⟩
    | true =>
      rw [hslash] at hlocate
      exact absurd (find?_of_follow_dot (locateBy_eq_ok_iff.mp hlocate).2.2.2) hnot

/-- What writing a file comes to. -/
theorem write_eq_ok (h : fs.write path text = .ok fs') : ∃ place,
    fs.locate path = .ok place ∧ fs.find? place ≠ some .directory ∧
      Path.endsInSlash path = false ∧ fs' = fs.put place (.file (.text text)) := by
  unfold write at h
  cases hopen : fs.openForWriting path with
  | error cause =>
    rw [hopen] at h
    cases h
  | ok opened =>
    rcases opened with ⟨place, old⟩
    rw [hopen] at h
    cases h
    rcases openForWriting_eq_ok hopen with ⟨hlocate, hnot, hslash⟩
    exact ⟨place, hlocate, hnot, hslash, rfl⟩

/-- A path that can be opened for writing can be written to. -/
theorem write_of_open {opened : Place × Option Content}
    (h : fs.openForWriting path = .ok opened) (text : String) :
    ∃ fs', fs.write path text = .ok fs' := by
  unfold write
  rw [h]
  exact ⟨_, rfl⟩

theorem write_of_not_open {cause : FileError} (h : fs.openForWriting path = .error cause)
    (text : String) : fs.write path text = .error cause := by
  unfold write
  rw [h]
  rfl

/-- The places above the working directory are directories, so no file is written there. -/
theorem isAbove_of_not_directory (h : fs.find? place ≠ some .directory) :
    place.isAbove = false := by
  rw [← Bool.not_eq_true]
  intro habove
  exact h (if_pos habove)

/-- What has been written is read again. -/
theorem read_write (h : fs.write path text = .ok fs') : fs'.read path = .ok (.text text) := by
  rcases write_eq_ok h with ⟨place, hlocate, hnot, hslash, rfl⟩
  rcases locateBy_eq_ok_iff.mp hlocate with ⟨hnull, hempty, hlong, hfollow⟩
  refine read_eq_ok_iff.mpr ⟨place, locateBy_eq_ok_iff.mpr
    ⟨hnull, hempty, hlong, follow_put hnot hfollow⟩, ?_, hslash⟩
  simp [find?_put, isAbove_of_not_directory hnot]

/-- Writing touches no node but the one that the path leads to. -/
theorem find?_write (h : fs.write path text = .ok fs') : ∃ place, fs.locate path = .ok place ∧
    fs'.find? place = some (.file (.text text)) ∧ ∀ q, q ≠ place → fs'.find? q = fs.find? q := by
  rcases write_eq_ok h with ⟨place, hlocate, hnot, -, rfl⟩
  refine ⟨place, hlocate, by simp [find?_put, isAbove_of_not_directory hnot], fun q hq => ?_⟩
  rw [find?_put, if_neg hq]
  unfold find?
  split <;> rfl

end Files

end Subleq
