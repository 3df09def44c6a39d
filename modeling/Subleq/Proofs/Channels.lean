import Mathlib
import Subleq.Proofs.Work

/-!
# Subleq.Proofs.Channels — what was printed does not matter

Two shells are alike if they differ in their channels only, that is, in what has been printed and
reported (`Shell.Like`). No work looks at the channels: on shells that are alike it comes to the
same result, and to shells that are alike again (`Work.Blind`). This is shown for the pieces that
work is put together from, and it is kept by putting them together.
-/

namespace Subleq

/-! ## Shells that are alike -/

/-- All that commands work on is the same; the channels may differ. -/
structure Shell.Like (sh sh' : Shell) : Prop where
  machine : sh'.machine = sh.machine
  files : sh'.files = sh.files
  input : sh'.input = sh.input
  attached : sh'.attached = sh.attached
  logFile : sh'.logFile = sh.logFile
  threshold : sh'.threshold = sh.threshold
  patience : sh'.patience = sh.patience

namespace Shell

variable {sh sh' sh'' : Shell}

theorem Like.refl (sh : Shell) : sh.Like sh := ⟨rfl, rfl, rfl, rfl, rfl, rfl, rfl⟩

theorem Like.trans (h : sh.Like sh') (h' : sh'.Like sh'') : sh.Like sh'' :=
  ⟨h'.machine.trans h.machine, h'.files.trans h.files, h'.input.trans h.input,
    h'.attached.trans h.attached, h'.logFile.trans h.logFile, h'.threshold.trans h.threshold,
    h'.patience.trans h.patience⟩

theorem like_channels (sh : Shell) (output errors : String) :
    sh.Like { sh with output, errors } := ⟨rfl, rfl, rfl, rfl, rfl, rfl, rfl⟩

theorem like_hears (sh : Shell) (records : List LogRecord) : sh.Like (sh.hears records) :=
  sh.like_channels _ _

theorem Like.plugged (h : sh.Like sh') : sh'.plugged = sh.plugged := by
  simp only [Shell.plugged, h.machine, h.input, h.attached]

theorem Like.absorbs (h : sh.Like sh') (m : Machine) : (sh.absorbs m).Like (sh'.absorbs m) := by
  refine ⟨by simp, by simp [h.files], ?_, by simp [h.attached], by simp [h.logFile],
    by simp [h.threshold], by simp [h.patience]⟩
  simp only [Shell.absorbs, h.attached, h.input]
  split
  · rfl
  · rfl

end Shell

namespace Work

/-! ## Work that does not look at what was printed -/

section Alike

variable {α β : Type}

/-- Two pieces of work come to the same on shells that differ in their channels only. -/
def Alike (x y : Work α) : Prop := ∀ sh sh', sh.Like sh' →
  (x.outcome sh).1 = (y.outcome sh').1 ∧ (x.outcome sh).2.Like (y.outcome sh').2

/-- The work does not look at the channels. -/
def Blind (x : Work α) : Prop := Alike x x

theorem blind_pure (a : α) : Blind (pure a) := fun _ _ h => ⟨rfl, h⟩

theorem blind_throw (cause : Failure) : Blind (throw cause : Work α) := fun _ _ h => ⟨rfl, h⟩

theorem blind_ofExcept {ε : Type} (failure : ε → Failure) (x : Except ε α) :
    Blind (ofExcept failure x) := by
  cases x with
  | error e => exact blind_throw (failure e)
  | ok a => exact blind_pure a

theorem alike_printLine (text text' : String) : Alike (printLine text) (printLine text') :=
  fun _ _ h => ⟨rfl, h.machine, h.files, h.input, h.attached, h.logFile, h.threshold, h.patience⟩

theorem alike_modify {f g : Shell → Shell} (hfg : ∀ sh sh', sh.Like sh' → (f sh).Like (g sh')) :
    Alike (modify f : Work PUnit) (modify g) := fun sh sh' h => ⟨rfl, hfg sh sh' h⟩

theorem Alike.bind {x y : Work α} {f g : α → Work β} (hxy : Alike x y)
    (hfg : ∀ a, Alike (f a) (g a)) : Alike (x >>= f) (y >>= g) := by
  intro sh sh' h
  rcases hxy sh sh' h with ⟨hresult, hlike⟩
  rw [outcome_bind, outcome_bind]
  generalize x.outcome sh = a at *
  generalize y.outcome sh' = b at *
  rcases a with ⟨r, s⟩
  rcases b with ⟨_, s'⟩
  -- both go on or both stop, since they have come to the same
  cases hresult
  cases r with
  | error cause => exact ⟨rfl, hlike⟩
  | ok a => exact hfg a s s' hlike

theorem Alike.tryCatch {x y : Work α} {f g : Failure → Work α} (hxy : Alike x y)
    (hfg : ∀ cause, Alike (f cause) (g cause)) : Alike (tryCatch x f) (tryCatch y g) := by
  intro sh sh' h
  rcases hxy sh sh' h with ⟨hresult, hlike⟩
  rw [outcome_tryCatch, outcome_tryCatch]
  generalize x.outcome sh = a at *
  generalize y.outcome sh' = b at *
  rcases a with ⟨r, s⟩
  rcases b with ⟨_, s'⟩
  cases hresult
  cases r with
  | error cause => exact hfg cause s s' hlike
  | ok a => exact ⟨rfl, hlike⟩

/-- What the shell is like can be asked for, and used but for the channels. -/
theorem blind_get {f : Shell → Work β} (hf : ∀ sh sh', sh.Like sh' → Alike (f sh) (f sh')) :
    Blind (get >>= f) := by
  intro sh sh' h
  rw [outcome_bind, outcome_bind]
  exact hf sh sh' h sh sh' h

theorem blind_withPort (act : Machine → α × Machine) : Blind (withPort act) := by
  intro sh sh' h
  rw [outcome_withPort, outcome_withPort, h.plugged]
  exact ⟨rfl, h.absorbs _⟩

theorem blind_append (files : Files) (path text : String) : Blind (do
    let files ← ofExcept .file (files.append path text)
    modify fun sh => { sh with files } : Work PUnit) := by
  refine (blind_ofExcept _ _).bind fun files => alike_modify fun _ _ h => ?_
  exact ⟨h.machine, rfl, h.input, h.attached, h.logFile, h.threshold, h.patience⟩

theorem blind_log (r : LogRecord) : Blind (log r) := by
  have hbrief : Blind (modify fun sh => { sh with errors := sh.errors ++ r.briefLine } :
      Work PUnit) := by
    refine alike_modify fun _ _ h => ?_
    exact ⟨h.machine, h.files, h.input, h.attached, h.logFile, h.threshold, h.patience⟩
  apply blind_get
  intro sh sh' h
  simp only [h.threshold, h.logFile, h.files]
  cases sh.logFile with
  | none =>
    split
    · exact hbrief.bind fun _ => blind_pure _
    · exact blind_pure _
  | some path =>
    split
    · exact hbrief.bind fun _ => blind_append _ _ _
    · exact blind_append _ _ _

theorem blind_forM_log (records : List LogRecord) : Blind (records.forM log) := by
  induction records with
  | nil => exact blind_pure _
  | cons r rs ih => exact (blind_log r).bind fun _ => ih

theorem blind_readText (path : String) : Blind (readText path) := by
  intro sh sh' h
  rw [outcome_readText, outcome_readText, h.files]
  exact ⟨rfl, h⟩

theorem blind_writeText (path text : String) : Blind (writeText path text) := by
  intro sh sh' h
  rw [outcome_writeText, outcome_writeText, h.files]
  cases sh.files.write path text with
  | error cause => exact ⟨rfl, h⟩
  | ok files =>
    exact ⟨rfl, h.machine, rfl, h.input, h.attached, h.logFile, h.threshold, h.patience⟩

theorem blind_readImage (path : String) : Blind (readImage path) :=
  (blind_readText _).bind fun _ => (blind_ofExcept _ _).bind fun _ => (blind_log _).bind fun _ =>
    blind_pure _

theorem blind_compile (source : String) : Blind (compile source) := by
  refine (blind_forM_log _).bind fun _ => ?_
  split
  · exact blind_throw _
  · exact blind_pure _

theorem blind_compileFile (source : String) (target : Option String) :
    Blind (compileFile source target) := by
  refine (blind_readText _).bind fun _ => (blind_compile _).bind fun s => ?_
  cases target with
  | none => exact blind_pure _
  | some path => exact (blind_writeText _ _).bind fun _ => blind_pure _

theorem blind_install (p : Program) : Blind (install p) :=
  alike_modify fun _ _ h => ⟨by simp only [h.machine], h.files, h.input, h.attached, h.logFile,
    h.threshold, h.patience⟩

theorem blind_runTraced (tracing : Bool) (limit : StepLimit) : Blind (runTraced tracing limit) := by
  -- the shell is asked for twice: for the patience here, for the machine after the run
  apply blind_get
  intro sh sh' h
  rw [h.patience]
  refine (blind_withPort _).bind fun (result, trace) => ?_
  have hlog : Blind (do
      (Machine.runLog limit.count? (result, (← get).machine)).forM log
      return (← ofExcept .fault result, trace) : Work (StopReason × Trace)) := by
    apply blind_get
    intro s s' hs
    rw [hs.machine]
    exact (blind_forM_log _).bind fun _ => (blind_ofExcept _ _).bind fun _ => blind_pure _
  dsimp only
  split
  · exact blind_throw _
  · exact blind_throw _
  · exact hlog

theorem blind_run (limit : StepLimit) : Blind (run limit) :=
  (blind_runTraced false limit).bind fun _ => blind_pure _

/-- Whether a text can be made does not depend on the channels. -/
theorem blind_text (text : Except Text.TooManyDigits String) : Blind (Work.text text) :=
  blind_ofExcept _ _

theorem blind_preload : Blind preload := by
  refine (blind_withPort _).bind fun count => ?_
  cases count with
  | none => exact blind_throw _
  | some count => exact (blind_forM_log _).bind fun _ => blind_pure _

end Alike

end Work

end Subleq
