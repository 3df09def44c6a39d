import Mathlib
import Subleq.Proofs.Channels
import Subleq.Proofs.Faults
import Subleq.Proofs.FileTree
import Subleq.Proofs.RoundTrip

/-!
# Subleq.Proofs.Console — what the lines of the console do

Few commands of the console do more than print: `load` and `compile` with a file name, `run` and
`initram`. What each of them does to the machine and to the files is written out in
`Console.Effect`, for lines that come to an end without a failure that ends the console. All other
lines are inert: they never fail, and leave everything as it is but the channels
(`outcome_handle_inert`).

Since no line looks at the channels (`blind_handle`), inert lines can be left out of a session, and
the other lines come to what they came to before (`lines_effect`).
-/

namespace Subleq

/-! ## Images that have been written -/

theorem Text.unifyNewlines_eq {cs : List Char} (h : '\r' ∉ cs) : unifyNewlines cs = cs := by
  induction cs with
  | nil => rfl
  | cons c cs ih =>
    have hc : c ≠ '\r' := fun heq => h (by simp [heq])
    have hrest := ih fun hmem => h (List.mem_cons_of_mem c hmem)
    unfold unifyNewlines
    split
    · next heq => cases heq
    · next heq => exact absurd (List.cons.inj heq).1 hc
    · next heq =>
      cases heq
      rw [if_neg hc, hrest]

/-- An image is read from a file as it was written to it. -/
theorem Content.read_render (p : Program) :
    (Content.text (Image.render p)).read = .ok (Image.render p) := by
  have hreturn : '\r' ∉ (Image.render p).toList := by
    intro hmem
    rw [Image.render, Text.unlines, String.toList_ofList, List.mem_flatMap] at hmem
    rcases hmem with ⟨line, hline, hmem⟩
    rcases List.mem_append.mp hmem with hmem | hmem
    · exact absurd (Image.not_isLineBreak hline '\r' hmem) (by decide)
    · exact absurd (List.mem_singleton.mp hmem) (by decide)
  rw [Content.read, Text.unifyNewlines_eq hreturn, String.ofList_toList]

namespace Files

variable {fs fs' : Files} {path : String}

theorem text_clean_write {p : Program} (h : fs.write path (Image.render p) = .ok fs') :
    fs'.text (Path.clean path) = .ok (Image.render p) := by
  rw [text, read_clean (read_write h)]
  simp only [Content.read_render]
  rfl

/-- From a file that an image was written to, the store that it shows is loaded. -/
theorem image_write {p : Program} (h : fs.write path (Image.render p) = .ok fs') :
    fs'.image path = .ok (Image.readBack p) := by
  delta image
  rw [text_clean_write h]
  simp only [Image.read_render]
  rfl

end Files

namespace Console

open Work

variable {sh sh' : Shell} {line path : String}

/-! ## Lines -/

/-- The command on a line; a blank line has none. -/
def command (line : String) : String := String.ofList (Text.firstWord line.toList).1

/-- What follows the command on a line. -/
def argument (line : String) : String :=
  String.ofList (Text.trimEnd (Text.firstWord line.toList).2)

/-- The failure of a command is told, or it ends the console. -/
def rescue (failure : Failure) : Work Bool :=
  match failure.kind with
  | .badValue => do
    printLine s!"Invalid address: {failure.message}"
    return true
  | .missingFile path => do
    printLine s!"Cannot find file: {path}"
    return true
  | _ => throw failure

theorem handle_eq (line : String) : handle line =
    if command line = "" then pure true
    else tryCatch (perform (command line) (argument line)) rescue := by
  have hblank : command line = "" ↔ (Text.firstWord line.toList).1 = [] := by
    rw [command, ← String.toList_inj]
    simp
  by_cases hcommand : command line = ""
  · rw [if_pos hcommand, handle]
    simp only [hblank.mp hcommand, if_true]
  · -- nothing comes after the command but a result, so it makes no difference what is caught
    rw [if_neg hcommand, handle]
    simp only [hblank.not.mp hcommand, if_false]
    funext sh
    show Work.outcome _ sh = Work.outcome _ sh
    rw [outcome_bind, outcome_tryCatch, outcome_tryCatch, outcome_bind]
    unfold command argument
    generalize (perform _ _).outcome sh = result
    rcases result with ⟨failure | b, sh'⟩
    · unfold rescue
      dsimp only
      generalize failure.kind = kind
      cases kind <;> rfl
    · rfl

/-- The console goes on after a failure of this kind. -/
def IsTold (failure : Failure) : Prop :=
  failure.kind = .badValue ∨ ∃ path, failure.kind = .missingFile path

theorem outcome_rescue (failure : Failure) (sh : Shell) :
    ∃ sh', sh.Like sh' ∧ (IsTold failure → (rescue failure).outcome sh = (.ok true, sh')) ∧
      (¬IsTold failure → (rescue failure).outcome sh = (.error failure, sh')) := by
  unfold rescue IsTold
  cases hkind : failure.kind with
  | badValue =>
    refine ⟨_, ?_, fun _ => rfl, fun h => absurd (.inl rfl) h⟩
    exact sh.like_channels _ _
  | missingFile path =>
    refine ⟨_, ?_, fun _ => rfl, fun h => absurd (.inr ⟨path, rfl⟩) h⟩
    exact sh.like_channels _ _
  | _ => exact ⟨sh, .refl sh, fun h => by simp at h, fun _ => rfl⟩

/-! ## Work that only prints -/

section Prints

variable {α β : Type}

/-- All that the work leaves behind is on the channels, and its failures do not end the console. -/
def Prints (x : Work α) : Prop := ∀ sh, sh.logFile = none →
  sh.Like (x.outcome sh).2 ∧ ∀ cause, (x.outcome sh).1 = .error cause → IsTold cause

theorem prints_pure (a : α) : Prints (pure a) := fun sh _ => ⟨.refl sh, nofun⟩

theorem prints_throw {cause : Failure} (h : IsTold cause) : Prints (throw cause : Work α) := by
  intro sh _
  refine ⟨.refl sh, fun cause' heq => ?_⟩
  cases heq
  exact h

theorem prints_printLine (text : String) : Prints (printLine text) :=
  fun sh _ => ⟨sh.like_channels _ _, nofun⟩

theorem prints_get : Prints get := fun sh _ => ⟨.refl sh, nofun⟩

/-- A text that cannot be made is told of, as other bad values are. -/
theorem prints_text (made : Except Text.TooManyDigits String) : Prints (Work.text made) := by
  cases made with
  | ok text => exact prints_pure text
  | error cause => exact prints_throw (.inl rfl)

theorem Prints.bind {x : Work α} {f : α → Work β} (hx : Prints x) (hf : ∀ a, Prints (f a)) :
    Prints (x >>= f) := by
  intro sh hlog
  rcases hx sh hlog with ⟨hlike, htold⟩
  rw [outcome_bind]
  generalize x.outcome sh = result at *
  rcases result with ⟨_ | a, sh'⟩
  · refine ⟨hlike, fun cause heq => htold cause ?_⟩
    simpa using heq
  · rcases hf a sh' (hlike.logFile.trans hlog) with ⟨hlike', htold'⟩
    exact ⟨hlike.trans hlike', htold'⟩

theorem prints_readAddress (text : String) : Prints (Command.readAddress text) := by
  intro sh hlog
  unfold Command.readAddress
  rcases Address.read text with ⟨result, records⟩
  simp only [outcome_bind, outcome_forM_log hlog, outcome_ofExcept]
  refine ⟨sh.like_hears records, fun cause heq => ?_⟩
  cases result with
  | ok a => cases heq
  | error cause' =>
    cases heq
    exact .inl rfl

theorem prints_ramDump : Prints ramDump :=
  (prints_printLine _).bind fun _ => prints_get.bind fun _ => (prints_text _).bind fun _ =>
    (prints_printLine _).bind fun _ => prints_printLine _

theorem prints_romDump : Prints romDump :=
  (prints_printLine _).bind fun _ => prints_get.bind fun _ => (prints_text _).bind fun _ =>
    (prints_printLine _).bind fun _ => prints_printLine _

theorem prints_requireName_empty : Prints (requireName "") :=
  prints_throw (.inr ⟨"", rfl⟩)

end Prints

/-- The line asks for nothing that changes the machine or the files. -/
def IsInert (line : String) : Prop :=
  command line ≠ "run" ∧ command line ≠ "initram" ∧
    (command line = "load" ∨ command line = "compile" → argument line = "")

instance (line : String) : Decidable (IsInert line) :=
  inferInstanceAs (Decidable (_ ∧ _ ∧ _))

theorem prints_perform (h : IsInert line) : Prints (perform (command line) (argument line)) := by
  rcases h with ⟨hrun, hinit, hname⟩
  have hnone : ∀ {x : Unit → Work Unit}, Prints (requireName "" >>= x) := by
    intro x sh hlog
    exact prints_requireName_empty sh hlog
  unfold perform
  split
  · exact (prints_printLine _).bind fun _ => prints_pure _
  · next heq =>
    rw [hname (.inr heq)]
    exact hnone.bind fun _ => prints_pure _
  · next heq =>
    rw [hname (.inl heq)]
    exact hnone.bind fun _ => prints_pure _
  · next heq => exact absurd heq hrun
  · next heq => exact absurd heq hinit
  · exact prints_romDump.bind fun _ => prints_pure _
  · exact prints_ramDump.bind fun _ => prints_pure _
  · exact (prints_readAddress _).bind fun _ => prints_get.bind fun _ => (prints_text _).bind
      fun _ => (prints_printLine _).bind fun _ => prints_pure _
  · exact (prints_readAddress _).bind fun _ => prints_get.bind fun _ => (prints_text _).bind
      fun _ => (prints_printLine _).bind fun _ => prints_pure _
  · split
    · exact (prints_printLine _).bind fun _ => prints_pure _
    · exact (prints_printLine _).bind fun _ => prints_pure _

/-- An inert line always comes to an end, and leaves everything as it is but the channels. -/
theorem outcome_handle_inert (hlog : sh.logFile = none) (h : IsInert line) :
    ∃ goesOn sh', (handle line).outcome sh = (.ok goesOn, sh') ∧ sh.Like sh' := by
  rw [handle_eq]
  by_cases hcommand : command line = ""
  · rw [if_pos hcommand]
    exact ⟨true, sh, rfl, .refl sh⟩
  · rw [if_neg hcommand, outcome_tryCatch]
    rcases prints_perform h sh hlog with ⟨hlike, htold⟩
    generalize (perform _ _).outcome sh = result at *
    rcases result with ⟨cause | goesOn, sh'⟩
    · rcases outcome_rescue cause sh' with ⟨sh'', hlike', hrescue, -⟩
      exact ⟨true, sh'', hrescue (htold cause rfl), hlike.trans hlike'⟩
    · exact ⟨goesOn, sh', rfl, hlike⟩

/-! ## Programs that are loaded -/

/-- Loading an image puts its program in place, or none where there is no such program. -/
theorem outcome_load (hlog : sh.logFile = none) (hpath : path ≠ "") :
    ∃ result sh', (load path).outcome sh = (result, sh') ∧
      { sh with
        machine := sh.machine.loadProgram ((sh.files.image path).toOption.getD ∅) }.Like sh' ∧
      ∀ cause, result = .error cause → sh.files.image path = .error cause := by
  have hname : requireName path = pure () := if_neg hpath
  unfold load
  simp only [hname, outcome_bind, outcome_pure, outcome_printLine, outcome_install,
    outcome_tryCatch]
  rw [outcome_readImage]
  swap
  · exact hlog
  dsimp only
  -- the old program is gone before the file is read, so no case brings it back
  cases sh.files.image path with
  | ok p =>
    refine ⟨_, _, rfl, ?_, nofun⟩
    exact Shell.like_channels _ _ _
  | error cause =>
    cases cause with
    | image cause =>
      refine ⟨_, _, rfl, ?_, nofun⟩
      exact Shell.like_channels _ _ _
    | _ =>
      refine ⟨_, _, rfl, ?_, fun cause heq => ?_⟩
      · exact Shell.like_channels _ _ _
      · cases heq
        rfl

theorem locate_defaultImage (fs : Files) : fs.locate defaultImage = .ok [defaultImage] := by
  have hnull : defaultImage.toList.contains (Char.ofNat 0) = false := by decide
  have hsteps : Path.steps defaultImage = [defaultImage] := by decide +kernel
  have horigin : Place.origin defaultImage = [] := by decide +kernel
  have hfollow : fs.follow [] [defaultImage] = .ok [defaultImage] := rfl
  rw [Files.locate, hsteps, Files.locateBy, horigin, hnull, hfollow]
  rfl

/-- Where the image is written there may only be a directory in the way. -/
theorem not_isTold_write {fs : Files} {text : String} {cause : FileError}
    (h : fs.write defaultImage text = .error cause) : ¬IsTold (.file cause) := by
  have hkind : cause.kind = .isADirectory := by
    have hopen : fs.locateBy defaultImage (Path.steps defaultImage) = .ok [defaultImage] :=
      locate_defaultImage fs
    have hslash : Path.endsInSlash defaultImage = false := by decide +kernel
    unfold Files.write Files.openForWriting at h
    simp only [hslash, Bool.false_eq_true, if_false, hopen] at h
    cases hfind : fs.find? [defaultImage] with
    | none => simp [hfind, bind, Except.bind, pure, Except.pure] at h
    | some node =>
      cases node with
      | file content => simp [hfind, bind, Except.bind, pure, Except.pure] at h
      | directory =>
        simp only [hfind, bind, Except.bind, Except.error.injEq] at h
        rw [← h]
  rcases cause with ⟨_, path⟩
  cases hkind
  rintro (heq | ⟨path', heq⟩)
  · cases heq
  · cases heq

/-- A file that is not compiled to the end changes nothing. -/
theorem outcome_compile_error (hlog : sh.logFile = none) (hpath : path ≠ "") {cause : Failure}
    (h : sh.files.compiled (Path.clean path) = .error cause) :
    ∃ sh', (compile path).outcome sh = (.error cause, sh') ∧ sh.Like sh' := by
  have hname : requireName path = pure () := if_neg hpath
  rcases outcome_compileFile hlog path (some defaultImage) with ⟨records, hcompile⟩
  rw [h] at hcompile
  unfold compile
  simp only [hname, outcome_bind, outcome_pure, hcompile]
  exact ⟨_, rfl, sh.like_hears records⟩

/-- A file that is compiled leaves its image behind and its program loaded, unless the image cannot
be written. -/
theorem outcome_compile_ok (hlog : sh.logFile = none) (hpath : path ≠ "") {s : Session}
    (h : sh.files.compiled (Path.clean path) = .ok s) :
    (∃ cause sh', (compile path).outcome sh = (.error cause, sh') ∧ ¬IsTold cause ∧ sh.Like sh') ∨
    ∃ files sh', (compile path).outcome sh = (.ok (), sh') ∧
      sh.files.write defaultImage (Image.render s.program) = .ok files ∧
      { sh with
        files
        machine := sh.machine.loadProgram (Image.readBack s.program) }.Like sh' := by
  have hname : requireName path = pure () := if_neg hpath
  rcases outcome_compileFile hlog path (some defaultImage) with ⟨records, hcompile⟩
  rw [h] at hcompile
  unfold compile
  simp only [hname, outcome_bind, outcome_pure, hcompile]
  cases hwrite : sh.files.write defaultImage (Image.render s.program) with
  | error cause => exact .inl ⟨_, _, rfl, not_isTold_write hwrite, sh.like_hears records⟩
  | ok files =>
    -- what is loaded is the file that has just been written
    have himage := Files.image_write hwrite
    have hlog' : { sh.hears records with files }.logFile = none := hlog
    have hname' : defaultImage ≠ "" := by decide
    rcases outcome_load hlog' hname' with ⟨result, sh', hload, hlike, hok⟩
    refine .inr ⟨files, sh', ?_, rfl, ?_⟩
    · simp only [hload]
      cases result with
      | ok _ => rfl
      | error cause =>
        have hbad := hok cause rfl
        rw [himage] at hbad
        cases hbad
    · rw [himage] at hlike
      simp only [Except.toOption, Option.getD_some] at hlike
      exact ⟨hlike.machine, hlike.files, hlike.input, hlike.attached, hlike.logFile,
        hlike.threshold, hlike.patience⟩

/-! ## Programs that run -/

section KeepsStore

variable {α : Type}

/-- The files and the program have not changed. -/
structure SameStore (sh sh' : Shell) : Prop where
  files : sh'.files = sh.files
  program : sh'.machine.program = sh.machine.program
  logFile : sh'.logFile = sh.logFile

theorem sameStore_of_like (h : sh.Like sh') : SameStore sh sh' :=
  ⟨h.files, by rw [h.machine], h.logFile⟩

theorem frame_sameStore : Frame SameStore where
  refl sh := sameStore_of_like (.refl sh)
  trans h h' := ⟨h'.files.trans h.files, h'.program.trans h.program, h'.logFile.trans h.logFile⟩
  logFile h := h.logFile

/-- The work changes neither the files nor the program, whether it fails or not. -/
abbrev KeepsStore (x : Work α) : Prop := Leaves SameStore x

theorem Prints.keepsStore {x : Work α} (h : Prints x) : KeepsStore x :=
  fun sh hlog => sameStore_of_like (h sh hlog).1

theorem keepsStore_workRun (limit : StepLimit) : KeepsStore (Work.run limit) := by
  intro sh hlog
  have habsorbs : ∀ n, SameStore sh (sh.absorbs (sh.plugged.run n).2) := fun n =>
    ⟨by simp, by simp [Machine.program_run], by simp⟩
  have hkept := habsorbs (limit.bound sh.patience)
  rw [outcome_run hlog]
  generalize sh.plugged.run (limit.bound sh.patience) = result at *
  rcases result with ⟨result, m⟩
  rcases limit with _ | count | _ <;> rcases result with cause | _ | _ <;>
    exact ⟨hkept.files, hkept.program, hkept.logFile⟩

theorem keepsStore_preload : KeepsStore preload := by
  intro sh hlog
  rw [outcome_preload hlog]
  cases hpreload : sh.plugged.preload with
  | none => exact ⟨by simp, by simp, by simp⟩
  | some result =>
    rcases result with ⟨count, m⟩
    have hprogram := Machine.program_preload hpreload
    rw [Shell.plugged_program] at hprogram
    have habsorbs : SameStore sh (sh.absorbs m) := ⟨by simp, by simp [hprogram], by simp⟩
    exact frame_sameStore.trans habsorbs (sameStore_of_like (Shell.like_hears _ _))

theorem keepsStore_run : KeepsStore run := by
  refine (prints_printLine _).keepsStore.bind frame_sameStore fun _ => ?_
  refine Leaves.tryCatch frame_sameStore ?_ fun failure => ?_
  · refine (keepsStore_workRun _).bind frame_sameStore fun _ => ?_
    exact (prints_get.bind fun _ => (prints_text _).bind fun _ => prints_printLine _).keepsStore
  · split
    · exact (prints_printLine _).keepsStore
    · exact (prints_get.bind fun _ => (prints_text _).bind fun _ => prints_printLine _).keepsStore
    · exact leaves_throw frame_sameStore _

theorem keepsStore_rescue (failure : Failure) : KeepsStore (rescue failure) := by
  unfold rescue
  split
  · exact ((prints_printLine _).bind fun _ => prints_pure _).keepsStore
  · exact ((prints_printLine _).bind fun _ => prints_pure _).keepsStore
  · exact leaves_throw frame_sameStore _

/-- The lines that are not inert and do not load anything are those that let the machine work. -/
theorem keepsStore_handle (hload : command line ≠ "load") (hcompile : command line ≠ "compile") :
    KeepsStore (handle line) := by
  rw [handle_eq]
  by_cases hcommand : command line = ""
  · rw [if_pos hcommand]
    exact (prints_pure true).keepsStore
  rw [if_neg hcommand]
  refine Leaves.tryCatch frame_sameStore ?_ keepsStore_rescue
  by_cases hrun : command line = "run"
  · rw [hrun]
    exact keepsStore_run.bind frame_sameStore fun _ => (prints_pure true).keepsStore
  by_cases hinit : command line = "initram"
  · rw [hinit]
    refine keepsStore_preload.bind frame_sameStore fun _ => Prints.keepsStore ?_
    exact (prints_printLine _).bind fun _ => prints_ramDump.bind fun _ => prints_pure true
  · refine (prints_perform ⟨hrun, hinit, ?_⟩).keepsStore
    rintro (h | h)
    · exact absurd h hload
    · exact absurd h hcompile

end KeepsStore

/-! ## Lines do not look at what was printed -/

theorem blind_printLine (text : String) : Blind (printLine text) := alike_printLine text text

/-- What is shown of the machine is the same for both, or it cannot be shown for either. -/
theorem blind_showing {β : Type} (made : Machine → Except Text.TooManyDigits String)
    {f : String → Work β} (hf : ∀ text, Blind (f text)) :
    Blind (get >>= fun sh => Work.text (made sh.machine) >>= f) := by
  refine blind_get fun sh sh' h => ?_
  rw [h.machine]
  exact (blind_text _).bind hf

theorem blind_requireName (path : String) : Blind (requireName path) := by
  unfold requireName
  split
  · exact blind_throw _
  · exact blind_pure ()

theorem blind_load (path : String) : Blind (load path) := by
  refine (blind_requireName path).bind fun _ => (blind_printLine _).bind fun _ =>
    (blind_install ∅).bind fun _ => ?_
  refine Alike.tryCatch ?_ fun failure => ?_
  · refine (blind_readImage path).bind fun program => (alike_modify fun _ _ h => ?_).bind fun _ =>
      blind_printLine _
    exact ⟨by rw [h.machine], h.files, h.input, h.attached, h.logFile, h.threshold, h.patience⟩
  · split
    · exact blind_printLine _
    · exact blind_throw _

theorem blind_compile (path : String) : Blind (compile path) :=
  (blind_requireName path).bind fun _ => (blind_compileFile path _).bind fun _ =>
    blind_load defaultImage

theorem blind_consoleRun : Blind run := by
  refine (blind_printLine _).bind fun _ => Alike.tryCatch ?_ fun failure => ?_
  · exact (blind_run .unlimited).bind fun _ =>
      blind_showing (fun m => Text.written m.steps) fun _ => blind_printLine _
  · split
    · exact blind_printLine _
    · exact blind_showing (fun m => Text.written m.pc) fun _ => blind_printLine _
    · exact blind_throw _

theorem blind_ramDump : Blind ramDump :=
  (blind_printLine _).bind fun _ => blind_showing (fun m => m.memory.dump) fun _ =>
    (blind_printLine _).bind fun _ => blind_printLine _

theorem blind_romDump : Blind romDump :=
  (blind_printLine _).bind fun _ => blind_showing (fun m => m.program.dump) fun _ =>
    (blind_printLine _).bind fun _ => blind_printLine _

theorem blind_readAddress (text : String) : Blind (Command.readAddress text) :=
  (blind_forM_log _).bind fun _ => blind_ofExcept _ _

theorem blind_perform (command argument : String) : Blind (perform command argument) := by
  have hend : Blind (pure true : Work Bool) := blind_pure true
  unfold perform
  split
  · exact (blind_printLine _).bind fun _ => hend
  · exact (blind_compile _).bind fun _ => hend
  · exact (blind_load _).bind fun _ => hend
  · exact blind_consoleRun.bind fun _ => hend
  · exact blind_preload.bind fun _ => (blind_printLine _).bind fun _ => blind_ramDump.bind
      fun _ => hend
  · exact blind_romDump.bind fun _ => hend
  · exact blind_ramDump.bind fun _ => hend
  · exact (blind_readAddress _).bind fun address =>
      blind_showing (fun m => Command.romLine address (m.fetch address)) fun _ =>
        (blind_printLine _).bind fun _ => hend
  · exact (blind_readAddress _).bind fun address =>
      blind_showing (fun m => Command.ramLine address (m.memory.get? address)) fun _ =>
        (blind_printLine _).bind fun _ => hend
  · split
    · exact (blind_printLine _).bind fun _ => blind_pure false
    · exact (blind_printLine _).bind fun _ => hend

theorem blind_handle (line : String) : Blind (handle line) := by
  rw [handle_eq]
  split
  · exact blind_pure true
  · refine (blind_perform _ _).tryCatch fun failure => ?_
    unfold rescue
    split
    · exact (blind_printLine _).bind fun _ => blind_pure true
    · exact (blind_printLine _).bind fun _ => blind_pure true
    · exact blind_throw _

/-! ## What a line does -/

/-- The machine has just been given a program: it is at its beginning, with no value stored. -/
structure IsLoaded (m : Machine) (p : Program) : Prop where
  program : m.program = p
  cells : m.memory.cells = ∅
  pc : m.pc = 0
  steps : m.steps = 0
  state : m.state = .idle

theorem isLoaded_loadProgram (m : Machine) (p : Program) : IsLoaded (m.loadProgram p) p :=
  ⟨rfl, rfl, rfl, rfl, rfl⟩

/-- What a line that comes to an end does to the machine and to the files. -/
structure Effect (line : String) (sh sh' : Shell) : Prop where
  /-- Only two commands put another program in place. -/
  program : command line ≠ "load" → command line ≠ "compile" →
    sh'.machine.program = sh.machine.program
  /-- Only four commands do anything to the machine. -/
  machine : command line ∉ ["load", "compile", "run", "initram"] → sh'.machine = sh.machine
  /-- Only one command writes a file. -/
  files : command line ≠ "compile" → sh'.files = sh.files
  /-- What is loaded is the program of the image file, or none if it has no program. -/
  loaded : command line = "load" → argument line ≠ "" →
    IsLoaded sh'.machine ((sh.files.image (argument line)).toOption.getD ∅)
  /-- What is compiled is written to the one file, and its program is loaded from there. -/
  compiled : command line = "compile" → argument line ≠ "" →
    ∀ s, sh.files.compiled (Path.clean (argument line)) = .ok s →
      (∃ p, Image.read (Image.render s.program) = .ok p ∧ IsLoaded sh'.machine p) ∧
      sh'.files.find? [defaultImage] = some (.file (.text (Image.render s.program))) ∧
      ∀ place, place ≠ [defaultImage] → sh'.files.find? place = sh.files.find? place
  /-- A file that is not compiled to the end is no reason to drop the program. -/
  rejected : command line = "compile" → argument line ≠ "" →
    ∀ cause, sh.files.compiled (Path.clean (argument line)) = .error cause →
      sh'.machine = sh.machine ∧ sh'.files = sh.files
  /-- All other lines, and the two commands without a file name, only print. -/
  inert : IsInert line → sh.Like sh'

/-- An inert line has no effect but on the channels. -/
theorem effect_of_like (h : sh.Like sh') (hinert : IsInert line) : Effect line sh sh' where
  program _ _ := by rw [h.machine]
  machine _ := h.machine
  files _ := h.files
  loaded hcommand hname := absurd (hinert.2.2 (.inl hcommand)) hname
  compiled hcommand hname := absurd (hinert.2.2 (.inr hcommand)) hname
  rejected hcommand hname := absurd (hinert.2.2 (.inr hcommand)) hname
  inert _ := h

theorem effect_of_sameStore (h : SameStore sh sh')
    (hcommand : command line = "run" ∨ command line = "initram") : Effect line sh sh' := by
  have hnot : command line ≠ "load" ∧ command line ≠ "compile" ∧ ¬IsInert line ∧
      command line ∈ ["load", "compile", "run", "initram"] := by
    unfold IsInert
    rcases hcommand with hcommand | hcommand <;> simp [hcommand]
  rcases hnot with ⟨hload, hcompile, hinert, hmem⟩
  exact {
    program := fun _ _ => h.program
    machine := fun hother => absurd hmem hother
    files := fun _ => h.files
    loaded := fun heq => absurd heq hload
    compiled := fun heq => absurd heq hcompile
    rejected := fun heq => absurd heq hcompile
    inert := fun heq => absurd heq hinert }

theorem perform_load (hcommand : command line = "load") :
    perform (command line) (argument line) = load (argument line) >>= fun _ => pure true := by
  rw [hcommand]
  rfl

theorem perform_compile (hcommand : command line = "compile") :
    perform (command line) (argument line) = compile (argument line) >>= fun _ => pure true := by
  rw [hcommand]
  rfl

/-- The two commands that need a file name are inert without one. -/
theorem argument_ne_empty (hcommand : command line = "load" ∨ command line = "compile")
    (h : ¬IsInert line) : argument line ≠ "" := by
  intro hname
  refine h ⟨?_, ?_, fun _ => hname⟩
  · rcases hcommand with heq | heq <;> rw [heq] <;> decide
  · rcases hcommand with heq | heq <;> rw [heq] <;> decide

/-- After the command on a line only its failure may have to be told. -/
theorem like_handle {x : Work Unit} (hcommand : command line ≠ "")
    (hperform : perform (command line) (argument line) = x >>= fun _ => pure true)
    {result : Except Failure Unit} {sh₁ : Shell} (hx : x.outcome sh = (result, sh₁)) :
    sh₁.Like ((handle line).outcome sh).2 ∧ ∀ goesOn, ((handle line).outcome sh).1 = .ok goesOn →
      ∀ cause, result = .error cause → IsTold cause := by
  rw [handle_eq, if_neg hcommand, outcome_tryCatch, hperform, outcome_bind, hx]
  cases result with
  | ok _ => exact ⟨.refl sh₁, nofun⟩
  | error cause =>
    rcases outcome_rescue cause sh₁ with ⟨sh₂, hlike, htold, hnot⟩
    by_cases hcause : IsTold cause
    · simp only [htold hcause]
      refine ⟨hlike, fun _ _ cause' heq => ?_⟩
      cases heq
      exact hcause
    · simp only [hnot hcause]
      exact ⟨hlike, nofun⟩

theorem effect_of_load (hlog : sh.logFile = none) (hcommand : command line = "load")
    (hname : argument line ≠ "") {goesOn : Bool}
    (h : (handle line).outcome sh = (.ok goesOn, sh')) : Effect line sh sh' := by
  rcases outcome_load hlog hname with ⟨result, sh₁, hload, hlike, -⟩
  have hblank : command line ≠ "" := by rw [hcommand]; decide
  have hend := (like_handle hblank (perform_load hcommand) hload).1
  rw [h] at hend
  have hmachine := hend.machine.trans hlike.machine
  have hcompile : command line ≠ "compile" := by rw [hcommand]; decide
  exact {
    program := fun heq => absurd hcommand heq
    machine := fun hother => absurd (by simp [hcommand]) hother
    files := fun _ => hend.files.trans hlike.files
    loaded := fun _ _ => by
      rw [hmachine]
      exact isLoaded_loadProgram _ _
    compiled := fun heq => absurd heq hcompile
    rejected := fun heq => absurd heq hcompile
    inert := fun hinert => absurd (hinert.2.2 (.inl hcommand)) hname }

theorem effect_of_compile (hlog : sh.logFile = none) (hcommand : command line = "compile")
    (hname : argument line ≠ "") {goesOn : Bool}
    (h : (handle line).outcome sh = (.ok goesOn, sh')) : Effect line sh sh' := by
  have hperform := perform_compile hcommand
  have hblank : command line ≠ "" := by rw [hcommand]; decide
  have hload : command line ≠ "load" := by rw [hcommand]; decide
  -- by what the source comes to: the image is written and read back, or all stays as it was
  have hdone : (∀ s, sh.files.compiled (Path.clean (argument line)) = .ok s →
        (∃ p, Image.read (Image.render s.program) = .ok p ∧ IsLoaded sh'.machine p) ∧
        sh'.files.find? [defaultImage] = some (.file (.text (Image.render s.program))) ∧
        ∀ place, place ≠ [defaultImage] → sh'.files.find? place = sh.files.find? place) ∧
      ∀ cause, sh.files.compiled (Path.clean (argument line)) = .error cause →
        sh'.machine = sh.machine ∧ sh'.files = sh.files := by
    cases hcompiled : sh.files.compiled (Path.clean (argument line)) with
    | error cause =>
      rcases outcome_compile_error hlog hname hcompiled with ⟨sh₁, hcompile, hlike⟩
      have hend := (like_handle hblank hperform hcompile).1
      rw [h] at hend
      refine ⟨nofun, fun _ _ => ⟨hend.machine.trans hlike.machine, hend.files.trans hlike.files⟩⟩
    | ok s =>
      refine ⟨fun s' heq => ?_, nofun⟩
      cases heq
      rcases outcome_compile_ok hlog hname hcompiled with ⟨cause, sh₁, hcompile, hnot, -⟩ |
        ⟨files, sh₁, hcompile, hwrite, hlike⟩
      · -- an image that cannot be written is not told of, so the console would have ended
        refine absurd ((like_handle hblank hperform hcompile).2 goesOn ?_ cause rfl) hnot
        rw [h]
      · have hend := (like_handle hblank hperform hcompile).1
        rw [h] at hend
        have hfiles := hend.files.trans hlike.files
        rcases Files.find?_write hwrite with ⟨place, hplace, hwritten, hframe⟩
        rw [locate_defaultImage] at hplace
        cases hplace
        refine ⟨⟨_, Image.read_render _, ?_⟩, ?_, fun place hne => ?_⟩
        · rw [hend.machine.trans hlike.machine]
          exact isLoaded_loadProgram _ _
        · rw [hfiles]
          exact hwritten
        · rw [hfiles]
          exact hframe place hne
  exact {
    program := fun _ heq => absurd hcommand heq
    machine := fun hother => absurd (by simp [hcommand]) hother
    files := fun heq => absurd hcommand heq
    loaded := fun heq => absurd heq hload
    compiled := fun _ _ => hdone.1
    rejected := fun _ _ => hdone.2
    inert := fun hinert => absurd (hinert.2.2 (.inr hcommand)) hname }

/-- The effect of one line. -/
theorem effect_of_handle (hlog : sh.logFile = none) {goesOn : Bool}
    (h : (handle line).outcome sh = (.ok goesOn, sh')) : Effect line sh sh' := by
  by_cases hinert : IsInert line
  · rcases outcome_handle_inert hlog hinert with ⟨goesOn', sh₁, hhandle, hlike⟩
    cases hhandle.symm.trans h
    exact effect_of_like hlike hinert
  by_cases hload : command line = "load"
  · exact effect_of_load hlog hload (argument_ne_empty (.inl hload) hinert) h
  by_cases hcompile : command line = "compile"
  · exact effect_of_compile hlog hcompile (argument_ne_empty (.inr hcompile) hinert) h
  · -- what is left is `run` and `initram`
    have hstore := keepsStore_handle hload hcompile sh hlog
    rw [h] at hstore
    refine effect_of_sameStore hstore ?_
    by_contra hother
    rw [not_or] at hother
    exact hinert ⟨hother.1, hother.2, fun heq => absurd heq (not_or.mpr ⟨hload, hcompile⟩)⟩

/-! ## Sessions -/

/-- The shell after lines, whatever becomes of each of them. -/
def after (sh : Shell) (lines : List String) : Shell :=
  lines.foldl (fun sh line => ((handle line).outcome sh).2) sh

theorem logFile_handle (hlog : sh.logFile = none) (line : String) :
    ((handle line).outcome sh).2.logFile = none := by
  by_cases hinert : IsInert line
  · rcases outcome_handle_inert hlog hinert with ⟨_, sh₁, hhandle, hlike⟩
    rw [hhandle]
    exact hlike.logFile.trans hlog
  by_cases hload : command line = "load"
  · rcases outcome_load hlog (argument_ne_empty (.inl hload) hinert) with
      ⟨result, sh₁, hresult, hlike, -⟩
    have hend := (like_handle (by rw [hload]; decide) (perform_load hload) hresult).1
    exact hend.logFile.trans (hlike.logFile.trans hlog)
  by_cases hcompile : command line = "compile"
  · have hname := argument_ne_empty (.inr hcompile) hinert
    have hblank : command line ≠ "" := by rw [hcompile]; decide
    have hperform := perform_compile hcompile
    cases hcompiled : sh.files.compiled (Path.clean (argument line)) with
    | error cause =>
      rcases outcome_compile_error hlog hname hcompiled with ⟨sh₁, hresult, hlike⟩
      exact (like_handle hblank hperform hresult).1.logFile.trans (hlike.logFile.trans hlog)
    | ok s =>
      rcases outcome_compile_ok hlog hname hcompiled with ⟨cause, sh₁, hresult, -, hlike⟩ |
        ⟨files, sh₁, hresult, -, hlike⟩
      · exact (like_handle hblank hperform hresult).1.logFile.trans (hlike.logFile.trans hlog)
      · exact (like_handle hblank hperform hresult).1.logFile.trans (hlike.logFile.trans hlog)
  · exact (keepsStore_handle hload hcompile sh hlog).logFile.trans hlog

theorem logFile_after (hlog : sh.logFile = none) (lines : List String) :
    (after sh lines).logFile = none := by
  induction lines generalizing sh with
  | nil => exact hlog
  | cons line lines ih => exact ih (logFile_handle hlog line)

theorem like_after (h : sh.Like sh') (lines : List String) :
    (after sh lines).Like (after sh' lines) := by
  induction lines generalizing sh sh' with
  | nil => exact h
  | cons line lines ih => exact ih (blind_handle line sh sh' h).2

/-- Inert lines can be left out of a session. -/
theorem like_after_filter (hlog : sh.logFile = none) (lines : List String) :
    (after sh (lines.filter fun line => ¬IsInert line)).Like (after sh lines) := by
  -- a line that is left out leads to a shell that is alike, and the rest is blind to that
  induction lines generalizing sh with
  | nil => exact .refl sh
  | cons line lines ih =>
    by_cases hinert : IsInert line
    · rcases outcome_handle_inert hlog hinert with ⟨_, sh₁, hhandle, hlike⟩
      rw [List.filter_cons_of_neg (by simp [hinert])]
      refine (ih hlog).trans ?_
      show (after sh lines).Like (after ((handle line).outcome sh).2 lines)
      rw [hhandle]
      exact like_after hlike lines
    · rw [List.filter_cons_of_pos (by simp [hinert])]
      exact ih (logFile_handle hlog line)

/-- Whatever lines there have been, the next line that comes to an end has its effect, and no more
than that. Lines that only print could have been left out: the machine, the files and the input are
the same without them, and so is what becomes of the next line. -/
theorem lines_effect (hlog : sh.logFile = none) (before : List String) :
    (∀ line goesOn sh', (handle line).outcome (after sh before) = (.ok goesOn, sh') →
      Effect line (after sh before) sh') ∧
    (after sh (before.filter fun line => ¬IsInert line)).Like (after sh before) ∧
    ∀ line, ((handle line).outcome (after sh (before.filter fun line => ¬IsInert line))).1 =
      ((handle line).outcome (after sh before)).1 := by
  have hlike := like_after_filter hlog before
  refine ⟨fun line goesOn sh' h => ?_, hlike, fun line => ?_⟩
  · exact effect_of_handle (logFile_after hlog before) h
  · exact (blind_handle line _ _ hlike).1

/-- A machine that holds one load, and no files at all. -/
def desk : Shell := { machine := { program := (∅ : Program).insert 0 (.load 5 1 256) } }

/-- Even where there is no file to be loaded the old program is dropped, with the value that was
stored, and the dump before makes no difference. -/
theorem lines_effect_desk : ∃ sh',
    (handle "load x").outcome (after desk ["initram", "ramdump"]) = (.ok true, sh') ∧
    Effect "load x" (after desk ["initram", "ramdump"]) sh' ∧
    (after desk ["initram"]).Like (after desk ["initram", "ramdump"]) := by
  have hlog : desk.logFile = none := rfl
  rcases lines_effect hlog ["initram", "ramdump"] with ⟨heffect, hlike, -⟩
  have hfilter : ["initram", "ramdump"].filter (fun line => ¬IsInert line) = ["initram"] := by
    decide +kernel
  have hresult : ((handle "load x").outcome (after desk ["initram", "ramdump"])).1 = .ok true := by
    decide +kernel
  have hload : (handle "load x").outcome (after desk ["initram", "ramdump"]) = (.ok true, _) :=
    Prod.ext hresult rfl
  rw [hfilter] at hlike
  exact ⟨_, hload, heffect _ _ _ hload, hlike⟩

end Console

end Subleq
