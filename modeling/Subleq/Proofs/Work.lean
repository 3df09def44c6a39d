import Mathlib
import Subleq.Console
import Subleq.Proofs.Placement
import Subleq.Proofs.Tracing

/-!
# Subleq.Proofs.Work — what work in a shell comes to

Every piece of work has an outcome: a result or a failure, and the shell that it leaves behind. Here
the outcomes of the pieces that commands are put together from are written out, so that what a
command does is found by putting outcomes together (`Work.outcome_bind`).

* Reading depends on the files alone: `Files.text`, `Files.image`, `Files.compiled` and
  `Files.program` say what comes of it.
* Reporting only adds to the error channel as long as there is no log file (`Shell.hears`).
* A machine that is attached to the terminal works with a port of its own (`Shell.plugged`), and the
  shell takes over what it has shown and how much it has read (`Shell.absorbs`).
-/

namespace Subleq

/-! ## What files hold -/

namespace Files

/-- The text of a file, or why there is none. -/
def text (fs : Files) (path : String) : Except Failure String :=
  match fs.read path with
  | .error cause => .error (.file cause)
  | .ok content => content.read.mapError .encoding

/-- The program store of an image file, or why there is none. -/
def image (fs : Files) (path : String) : Except Failure Program :=
  match fs.text (Path.clean path) with
  | .error cause => .error cause
  | .ok text => (Image.read text).mapError .image

/-- What a source file is compiled to, or why it is not compiled to the end. -/
def compiled (fs : Files) (path : String) : Except Failure Session :=
  match fs.text path with
  | .error cause => .error cause
  | .ok source =>
    match Session.compile {} source with
    | (_, some cause) => .error (.tooManyDigits cause)
    | (s, none) => .ok s

/-- The program store that a path stands for, or why there is none. -/
def program (fs : Files) (path : String) : Except Failure Program :=
  if Path.ending path = ".mif" then fs.image path else (fs.compiled path).map (·.program)

end Files

/-! ## What a shell takes over -/

namespace Shell

/-- What the error channel shows of records. -/
def shown (threshold : Log.Level) (records : List LogRecord) : String :=
  String.join ((records.filter fun r => threshold.rank ≤ r.level.rank).map (·.briefLine))

theorem shown_append (threshold : Log.Level) (rs rs' : List LogRecord) :
    shown threshold (rs ++ rs') = shown threshold rs ++ shown threshold rs' := by
  simp only [shown, List.filter_append, List.map_append, String.join_append]

/-- The shell after records have been reported without a log file. -/
def hears (sh : Shell) (records : List LogRecord) : Shell :=
  { sh with errors := sh.errors ++ shown sh.threshold records }

@[simp] theorem hears_nil (sh : Shell) : sh.hears [] = sh := by
  simp [hears, shown]

theorem hears_append (sh : Shell) (rs rs' : List LogRecord) :
    sh.hears (rs ++ rs') = (sh.hears rs).hears rs' := by
  simp only [hears, shown_append, String.append_assoc]

/-- The machine with the port that it works with. -/
def plugged (sh : Shell) : Machine :=
  if sh.attached then
    { sh.machine with
      memory := { sh.machine.memory with
        input := some (Terminal.input sh.input), output := some Layout.ioPortName, events := [] } }
  else sh.machine

/-- The shell after its machine has come to be another one. -/
def absorbs (sh : Shell) (m : Machine) : Shell :=
  if sh.attached then
    { sh with
      machine := m
      output := sh.output ++ String.join (m.memory.history.map Terminal.display)
      input := Terminal.after sh.input ((m.memory.input.map (·.taken)).getD 0)
      starved := sh.starved || m.memory.events.any Terminal.isEnd }
  else { sh with machine := m }

variable (sh : Shell) (m : Machine)

@[simp] theorem plugged_program : sh.plugged.program = sh.machine.program := by
  unfold plugged
  split <;> rfl

@[simp] theorem absorbs_machine : (sh.absorbs m).machine = m := by
  unfold absorbs
  split <;> rfl

@[simp] theorem absorbs_files : (sh.absorbs m).files = sh.files := by
  unfold absorbs
  split <;> rfl

@[simp] theorem absorbs_errors : (sh.absorbs m).errors = sh.errors := by
  unfold absorbs
  split <;> rfl

@[simp] theorem absorbs_threshold : (sh.absorbs m).threshold = sh.threshold := by
  unfold absorbs
  split <;> rfl

@[simp] theorem absorbs_attached : (sh.absorbs m).attached = sh.attached := by
  unfold absorbs
  split <;> rfl

@[simp] theorem absorbs_patience : (sh.absorbs m).patience = sh.patience := by
  unfold absorbs
  split <;> rfl

@[simp] theorem absorbs_logFile : (sh.absorbs m).logFile = sh.logFile := by
  unfold absorbs
  split <;> rfl

end Shell

namespace Work

/-! ## Putting work together -/

section Steps

variable {α β : Type}

@[simp] theorem outcome_pure (a : α) (sh : Shell) :
    (pure a : Work α).outcome sh = (.ok a, sh) := rfl

@[simp] theorem outcome_throw (cause : Failure) (sh : Shell) :
    (throw cause : Work α).outcome sh = (.error cause, sh) := rfl

@[simp] theorem outcome_get (sh : Shell) : (get : Work Shell).outcome sh = (.ok sh, sh) := rfl

@[simp] theorem outcome_set (sh sh' : Shell) :
    (set sh' : Work PUnit).outcome sh = (.ok ⟨⟩, sh') := rfl

@[simp] theorem outcome_modify (f : Shell → Shell) (sh : Shell) :
    (modify f : Work PUnit).outcome sh = (.ok ⟨⟩, f sh) := rfl

theorem outcome_ofExcept {ε : Type} (failure : ε → Failure) (x : Except ε α) (sh : Shell) :
    (ofExcept failure x).outcome sh = (x.mapError failure, sh) := by
  cases x <;> rfl

theorem outcome_bind (x : Work α) (f : α → Work β) (sh : Shell) :
    (x >>= f).outcome sh = match x.outcome sh with
      | (.ok a, sh') => (f a).outcome sh'
      | (.error cause, sh') => (.error cause, sh') := by
  unfold outcome
  rw [ExceptT.run_bind]
  simp only [bind, StateT.bind]
  rcases ExceptT.run x sh with ⟨_ | _, _⟩ <;> rfl

theorem outcome_tryCatch (x : Work α) (f : Failure → Work α) (sh : Shell) :
    (tryCatch x f : Work α).outcome sh = match x.outcome sh with
      | (.ok a, sh') => (.ok a, sh')
      | (.error cause, sh') => (f cause).outcome sh' := by
  simp only [outcome, tryCatch, tryCatchThe, MonadExceptOf.tryCatch, ExceptT.tryCatch, ExceptT.mk,
    ExceptT.run, bind, StateT.bind]
  rcases x sh with ⟨_ | _, _⟩ <;> rfl

end Steps

/-! ## What work leaves behind -/

section Leaves

variable {α β : Type} {R : Shell → Shell → Prop}

/-- A relation of a shell to the ones after it, which is put together from its steps. -/
structure Frame (R : Shell → Shell → Prop) : Prop where
  refl : ∀ sh, R sh sh
  trans : ∀ {sh sh' sh''}, R sh sh' → R sh' sh'' → R sh sh''
  logFile : ∀ {sh sh'}, R sh sh' → sh'.logFile = sh.logFile

/-- Whether it fails or not, the work leaves a shell behind that is related to the one before. -/
def Leaves (R : Shell → Shell → Prop) (x : Work α) : Prop :=
  ∀ sh, sh.logFile = none → R sh (x.outcome sh).2

theorem leaves_pure (hR : Frame R) (a : α) : Leaves R (pure a : Work α) := fun sh _ => hR.refl sh

theorem leaves_throw (hR : Frame R) (cause : Failure) : Leaves R (throw cause : Work α) :=
  fun sh _ => hR.refl sh

theorem leaves_get (hR : Frame R) : Leaves R (get : Work Shell) := fun sh _ => hR.refl sh

theorem leaves_modify {f : Shell → Shell} (h : ∀ sh, R sh (f sh)) :
    Leaves R (modify f : Work PUnit) := fun sh _ => h sh

theorem Leaves.bind (hR : Frame R) {x : Work α} {f : α → Work β} (hx : Leaves R x)
    (hf : ∀ a, Leaves R (f a)) : Leaves R (x >>= f) := by
  intro sh hlog
  have hleft := hx sh hlog
  rw [outcome_bind]
  generalize x.outcome sh = result at *
  rcases result with ⟨_ | a, sh'⟩
  · exact hleft
  · exact hR.trans hleft (hf a sh' ((hR.logFile hleft).trans hlog))

theorem Leaves.tryCatch (hR : Frame R) {x : Work α} {f : Failure → Work α} (hx : Leaves R x)
    (hf : ∀ cause, Leaves R (f cause)) : Leaves R (tryCatch x f) := by
  intro sh hlog
  have hleft := hx sh hlog
  rw [outcome_tryCatch]
  generalize x.outcome sh = result at *
  rcases result with ⟨cause | _, sh'⟩
  · exact hR.trans hleft (hf cause sh' ((hR.logFile hleft).trans hlog))
  · exact hleft

end Leaves

/-! ## Reports -/

variable {sh : Shell}

@[simp] theorem outcome_printLine (text : String) (sh : Shell) :
    (printLine text).outcome sh = (.ok (), { sh with output := sh.output ++ s!"{text}\n" }) := rfl

@[simp] theorem outcome_errorLine (text : String) (sh : Shell) :
    (errorLine text).outcome sh = (.ok (), { sh with errors := s!"{sh.errors}{text}\n" }) := rfl

theorem outcome_log (h : sh.logFile = none) (r : LogRecord) :
    (log r).outcome sh = (.ok (), sh.hears [r]) := by
  unfold log
  simp only [outcome_bind, outcome_get, h]
  by_cases hrank : sh.threshold.rank ≤ r.level.rank
  · simp [hrank, Shell.hears, Shell.shown]
  · simp [hrank, Shell.hears, Shell.shown]

theorem outcome_forM_log (h : sh.logFile = none) (records : List LogRecord) :
    (records.forM log).outcome sh = (.ok (), sh.hears records) := by
  -- each record is shown as it comes, so the shell changes on the way
  induction records generalizing sh with
  | nil => exact congrArg (Prod.mk _) (Shell.hears_nil sh).symm
  | cons r rs ih =>
    have hrest : (sh.hears [r]).logFile = none := h
    have hfirst : ((r :: rs).forM log).outcome sh = (rs.forM log).outcome (sh.hears [r]) := by
      show (log r >>= fun _ => rs.forM log).outcome sh = _
      rw [outcome_bind, outcome_log h]
    rw [hfirst, ih hrest, ← Shell.hears_append, List.singleton_append]

/-! ## Files -/

theorem outcome_readText (path : String) (sh : Shell) :
    (readText path).outcome sh = (sh.files.text path, sh) := by
  unfold readText Files.text
  simp only [outcome_bind, outcome_get, outcome_ofExcept]
  cases sh.files.read path <;> rfl

theorem outcome_writeText (path text : String) (sh : Shell) :
    (writeText path text).outcome sh = match sh.files.write path text with
      | .ok files => (.ok (), { sh with files })
      | .error cause => (.error (.file cause), sh) := by
  unfold writeText
  simp only [outcome_bind, outcome_get, outcome_ofExcept]
  cases sh.files.write path text <;> rfl

/-- What is reported of an image that was read. -/
def imageLog (path : String) (p : Program) : List LogRecord :=
  [⟨.info, .images, s!"loaded {p.size} records from {path}"⟩]

theorem outcome_readImage (h : sh.logFile = none) (path : String) :
    (readImage path).outcome sh = match sh.files.image path with
      | .ok p => (.ok p, sh.hears (imageLog path p))
      | .error cause => (.error cause, sh) := by
  unfold readImage Files.image
  simp only [outcome_bind, outcome_readText, outcome_ofExcept]
  cases sh.files.text (Path.clean path) with
  | error cause => rfl
  | ok text =>
    cases hread : Image.read text with
    | error cause => simp [hread, Except.mapError]
    | ok p => simp [hread, Except.mapError, outcome_log h, imageLog]

theorem outcome_compile (h : sh.logFile = none) (source : String) :
    (compile source).outcome sh = match Session.compile {} source with
      | (s, some cause) => (.error (.tooManyDigits cause), sh.hears s.log)
      | (s, none) => (.ok s, sh.hears s.log) := by
  unfold compile
  rcases Session.compile {} source with ⟨s, _ | cause⟩ <;>
    simp only [outcome_bind, outcome_forM_log h, outcome_pure, outcome_throw]

/-- Compiling a file comes to what the file holds, and all that is left behind is reports. -/
theorem outcome_compileText (h : sh.logFile = none) (path : String) :
    ∃ records, (readText path >>= compile).outcome sh =
      (sh.files.compiled path, sh.hears records) := by
  rw [outcome_bind, outcome_readText]
  unfold Files.compiled
  cases sh.files.text path with
  | error cause => exact ⟨[], by simp⟩
  | ok source =>
    simp only [outcome_compile h]
    rcases Session.compile {} source with ⟨s, _ | cause⟩ <;> exact ⟨s.log, rfl⟩

theorem outcome_readProgram (h : sh.logFile = none) (path : String) :
    ∃ records, (readProgram path).outcome sh = (sh.files.program path, sh.hears records) := by
  unfold readProgram Files.program
  split
  · rw [outcome_readImage h]
    cases sh.files.image path with
    | error cause => exact ⟨[], by simp⟩
    | ok p => exact ⟨_, rfl⟩
  · rcases outcome_compileText h path with ⟨records, hcompile⟩
    refine ⟨records, ?_⟩
    rw [← bind_assoc, outcome_bind, hcompile]
    cases sh.files.compiled path <;> rfl

/-- Compiling a file into an image leaves a file behind if a path is given for it. -/
theorem outcome_compileFile (h : sh.logFile = none) (source : String) (target : Option String) :
    ∃ records, (compileFile source target).outcome sh =
      match sh.files.compiled (Path.clean source), target with
      | .error cause, _ => (.error cause, sh.hears records)
      | .ok s, none => (.ok (Image.render s.program), sh.hears records)
      | .ok s, some path =>
        match sh.files.write path (Image.render s.program) with
        | .ok files => (.ok (Image.render s.program), { sh.hears records with files })
        | .error cause => (.error (.file cause), sh.hears records) := by
  rcases outcome_compileText h (Path.clean source) with ⟨records, hcompile⟩
  refine ⟨records, ?_⟩
  unfold compileFile
  rw [← bind_assoc, outcome_bind, hcompile]
  cases sh.files.compiled (Path.clean source) with
  | error cause => rfl
  | ok s =>
    cases target with
    | none => rfl
    | some path =>
      simp only [outcome_bind, outcome_writeText]
      have hfiles : (sh.hears records).files = sh.files := rfl
      rw [hfiles]
      cases sh.files.write path (Image.render s.program) <;> rfl

/-! ## The machine -/

@[simp] theorem outcome_install (p : Program) (sh : Shell) :
    (install p).outcome sh = (.ok (), { sh with machine := sh.machine.loadProgram p }) := rfl

theorem outcome_withPort {α : Type} (act : Machine → α × Machine) (sh : Shell) :
    (withPort act).outcome sh = (.ok (act sh.plugged).1, sh.absorbs (act sh.plugged).2) := by
  unfold withPort Shell.plugged Shell.absorbs
  simp only [outcome_bind, outcome_get]
  split <;> rfl

/-- A run comes to what the machine comes to, only that a run without a limit has to end. -/
theorem outcome_runTraced (h : sh.logFile = none) (tracing : Bool) (limit : StepLimit) :
    (runTraced tracing limit).outcome sh =
      match limit, Tracer.run { machine := sh.plugged, tracing } (limit.bound sh.patience) with
      | .unlimited, (.ok .stepLimit, t) => (.error .unending, sh.absorbs t.machine)
      | .missing, (.ok .stepLimit, t) => (.error (.missing .limit), sh.absorbs t.machine)
      | _, (result, t) => ((result.mapError .fault).map (·, t.trace),
          (sh.absorbs t.machine).hears (Machine.runLog limit.count? (result, t.machine))) := by
  have hlog : ∀ m, (sh.absorbs m).logFile = none := by
    intro m
    rw [Shell.absorbs_logFile, h]
  unfold runTraced
  simp only [outcome_bind, outcome_get, outcome_withPort]
  -- a limit that was reached is a result only where a limit was given
  rcases Tracer.run { machine := sh.plugged, tracing } (limit.bound sh.patience) with ⟨result, t⟩
  rcases limit with _ | count | _ <;> rcases result with cause | _ | _ <;>
    simp only [outcome_bind, outcome_get, outcome_forM_log (hlog t.machine), outcome_ofExcept,
      outcome_throw, outcome_pure, Shell.absorbs_machine, Except.mapError, Except.map]

theorem outcome_run (h : sh.logFile = none) (limit : StepLimit) :
    (run limit).outcome sh =
      match limit, sh.plugged.run (limit.bound sh.patience) with
      | .unlimited, (.ok .stepLimit, m) => (.error .unending, sh.absorbs m)
      | .missing, (.ok .stepLimit, m) => (.error (.missing .limit), sh.absorbs m)
      | _, (result, m) => (result.mapError .fault,
          (sh.absorbs m).hears (Machine.runLog limit.count? (result, m))) := by
  unfold run
  rw [outcome_bind, outcome_runTraced h, Tracer.run_untraced sh.plugged {}]
  rcases sh.plugged.run (limit.bound sh.patience) with ⟨result, m⟩
  rcases limit with _ | count | _ <;> rcases result with cause | _ | _ <;> rfl

theorem outcome_preload (h : sh.logFile = none) :
    preload.outcome sh = match sh.plugged.preload with
      | some (count, m) => (.ok count, (sh.absorbs m).hears (Machine.preloadLog count))
      | none => (.error .unending, sh.absorbs sh.plugged) := by
  have hlog : ∀ m, (sh.absorbs m).logFile = none := by
    intro m
    rw [Shell.absorbs_logFile, h]
  unfold preload
  simp only [outcome_bind, outcome_withPort]
  cases sh.plugged.preload with
  | none => rfl
  | some result =>
    rcases result with ⟨count, m⟩
    simp only [outcome_bind, outcome_forM_log (hlog m), outcome_pure]

end Work

end Subleq
