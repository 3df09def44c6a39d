import Mathlib
import Subleq.Proofs.ByteSized
import Subleq.Proofs.FileTree

/-!
# Subleq.Proofs.Verdicts — what the commands of the toolkit come to

What a command comes to is found from the files, the lines of the terminal and the patience there is
with a run, and from nothing else (`Command.verdict`, `outcome_perform`). What it leaves behind are
records in the error channel and what was printed, and a file if a compilation has come to its end
(`left_perform`).
-/

namespace Subleq

open Work

/-! ## What is left behind -/

/-- The files are as they were, and records have been added to the error channel and nothing
else. -/
structure Shell.Heard (sh sh' : Shell) : Prop where
  files : sh'.files = sh.files
  logFile : sh'.logFile = sh.logFile
  threshold : sh'.threshold = sh.threshold
  errors : ∃ records, sh'.errors = sh.errors ++ Shell.shown sh.threshold records

namespace Work

open Shell

variable {α : Type}

theorem heard_of_errors {sh sh' : Shell} (hfiles : sh'.files = sh.files)
    (hlog : sh'.logFile = sh.logFile) (hlevel : sh'.threshold = sh.threshold)
    (herrors : sh'.errors = sh.errors) : sh.Heard sh' :=
  ⟨hfiles, hlog, hlevel, [], by rw [herrors]; simp [shown]⟩

theorem heard_hears (sh : Shell) (records : List LogRecord) : sh.Heard (sh.hears records) :=
  ⟨rfl, rfl, rfl, records, rfl⟩

theorem frame_heard : Frame Heard where
  refl _ := heard_of_errors rfl rfl rfl rfl
  trans h h' := by
    rcases h.errors with ⟨records, herrors⟩
    rcases h'.errors with ⟨records', herrors'⟩
    refine ⟨h'.files.trans h.files, h'.logFile.trans h.logFile, h'.threshold.trans h.threshold,
      records ++ records', ?_⟩
    rw [herrors', herrors, h.threshold, shown_append, String.append_assoc]
  logFile h := h.logFile

theorem heard_absorbs (sh : Shell) (m : Machine) : sh.Heard (sh.absorbs m) :=
  heard_of_errors (absorbs_files sh m) (absorbs_logFile sh m) (absorbs_threshold sh m)
    (absorbs_errors sh m)

theorem leaves_printLine (text : String) : Leaves Heard (printLine text) :=
  leaves_modify fun _ => heard_of_errors rfl rfl rfl rfl

theorem leaves_install (p : Program) : Leaves Heard (install p) :=
  leaves_modify fun _ => heard_of_errors rfl rfl rfl rfl

theorem leaves_given {what : Missing} (a : Option α) : Leaves Heard (given what a) := by
  cases a with
  | none => exact leaves_throw frame_heard _
  | some a => exact leaves_pure frame_heard a

theorem leaves_readProgram (path : String) : Leaves Heard (readProgram path) := by
  intro sh hlog
  rcases outcome_readProgram hlog path with ⟨records, houtcome⟩
  rw [houtcome]
  exact heard_hears sh records

theorem leaves_readAddress (text : String) : Leaves Heard (Command.readAddress text) := by
  intro sh hlog
  unfold Command.readAddress
  rcases Address.read text with ⟨result, records⟩
  simp only [outcome_bind, outcome_forM_log hlog, outcome_ofExcept]
  exact heard_hears sh records

theorem leaves_text (made : Except Text.TooManyDigits String) : Leaves Heard (Work.text made) := by
  cases made with
  | ok text => exact leaves_pure frame_heard text
  | error cause => exact leaves_throw frame_heard _

theorem leaves_runTraced (tracing : Bool) (limit : StepLimit) :
    Leaves Heard (runTraced tracing limit) := by
  intro sh hlog
  rw [outcome_runTraced hlog]
  have habsorbs := heard_absorbs sh
  have hhears : ∀ m records, sh.Heard ((sh.absorbs m).hears records) := fun m records =>
    frame_heard.trans (habsorbs m) (heard_hears _ records)
  split
  · exact habsorbs _
  · exact habsorbs _
  · exact hhears _ _

theorem leaves_run (limit : StepLimit) : Leaves Heard (Work.run limit) :=
  (leaves_runTraced false limit).bind frame_heard fun _ => leaves_pure frame_heard _

theorem leaves_preload : Leaves Heard preload := by
  intro sh hlog
  rw [outcome_preload hlog]
  split
  · exact frame_heard.trans (heard_absorbs sh _) (heard_hears _ _)
  · exact heard_absorbs sh _

end Work

namespace Command

variable {c : Command}

/-- Of all commands only `compile` can do more than report and print. -/
theorem leaves_perform (h : ∀ source target, c ≠ .compile source target) :
    Leaves Shell.Heard c.perform := by
  -- every command but `compile` is put together from work that only prints and reports
  have hbind {α β : Type} {x : Work α} {f : α → Work β} := @Leaves.bind α β _ frame_heard x f
  cases c with
  | compile source target => exact absurd rfl (h source target)
  | run path limit trace dump =>
    refine hbind (leaves_readProgram path) fun p => hbind (leaves_install p) fun _ =>
      hbind (leaves_runTraced trace limit) fun (reason, lines) => hbind (leaves_get frame_heard)
      fun sh => ?_
    have hdump : Leaves Shell.Heard
        (if dump then Work.text sh.machine.memory.dump >>= printLine else pure ()) := by
      split
      · exact hbind (leaves_text _) leaves_printLine
      · exact leaves_pure frame_heard ()
    have hstop : Leaves Shell.Heard (tellStop sh.machine reason) := by
      refine hbind (leaves_text _) fun _ => ?_
      cases reason
      · exact leaves_printLine _
      · exact hbind (leaves_text _) fun _ => leaves_printLine _
    cases trace
    · exact hbind hstop fun _ => hdump
    · exact hbind (leaves_printLine _) fun _ => hbind hstop fun _ => hdump
  | initRam path =>
    exact hbind (leaves_readProgram path) fun p => hbind (leaves_install p) fun _ =>
      hbind leaves_preload fun _ => hbind (leaves_printLine _) fun _ =>
      hbind (leaves_get frame_heard) fun _ => hbind (leaves_text _) leaves_printLine
  | romDump path =>
    exact hbind (leaves_readProgram path) fun _ => hbind (leaves_text _) leaves_printLine
  | romGet path text =>
    exact hbind (leaves_readProgram path) fun _ => hbind (leaves_given text) fun _ =>
      hbind (leaves_readAddress _) fun _ => hbind (leaves_text _) leaves_printLine
  | ramGet path text onlyLoads limit =>
    refine hbind (leaves_given text) fun _ => hbind (leaves_readAddress _) fun _ =>
      hbind (leaves_readProgram path) fun p => hbind (leaves_install p) fun _ => ?_
    cases onlyLoads with
    | true =>
      exact hbind leaves_preload fun _ => hbind (leaves_get frame_heard) fun _ =>
        hbind (leaves_text _) leaves_printLine
    | false =>
      exact hbind (leaves_run limit) fun _ => hbind (leaves_get frame_heard) fun _ =>
        hbind (leaves_text _) leaves_printLine

/-- What a run comes to, if it is not given up. -/
def ran (limit : StepLimit) (result : Except Fault StopReason) : Except Failure Unit :=
  match limit, result with
  | .unlimited, .ok .stepLimit => .error .unending
  | .missing, .ok .stepLimit => .error (.missing .limit)
  | _, .ok _ => .ok ()
  | _, .error fault => .error (.fault fault)

/-- What telling of a run comes to that has left a machine. -/
def told (m : Machine) : Except Failure Unit :=
  if Text.IsWritable m.steps then .ok () else .error (.tooManyDigits .number)

/-- What executing the loads of a program comes to, if they come to an end. -/
def preloaded (m : Machine) : Except Failure Unit :=
  if m.preload.isSome then .ok () else .error .unending

/-- A machine with a program, attached to a terminal with lines to read. -/
def machine (p : Program) (lines : List Terminal.Line) : Machine :=
  .ofProgram p (Terminal.input lines) Layout.ioPortName

theorem byteSized_machine {p : Program} (hp : p.WellFormed) (lines : List Terminal.Line) :
    (machine p lines).ByteSized := Machine.byteSized_ofProgram hp lines _

/-- What an address on the command line comes to. -/
def addressed (text : Option String) : Except Failure Unit :=
  match text with
  | none => .error (.missing .address)
  | some text =>
    match (Address.read text).1 with
    | .ok _ => .ok ()
    | .error cause => .error (.address cause)

/-- What a command comes to, with files, lines of the terminal, and patience with runs. -/
def verdict (files : Files) (lines : List Terminal.Line) (patience : Int) :
    Command → Except Failure Unit
  | compile source target => do
    let _ ← files.compiled (Path.clean source)
    match target with
    | none => .error (.missing .target)
    | some path => (files.openForWriting path).mapError .file >>= fun _ => .ok ()
  | run path limit _ _ => do
    let p ← files.program path
    ran limit ((machine p lines).run (limit.bound patience)).1
    told ((machine p lines).run (limit.bound patience)).2
  | initRam path => do
    let p ← files.program path
    preloaded (machine p lines)
  | romDump path => do
    let _ ← files.program path
    .ok ()
  | romGet path text => do
    let _ ← files.program path
    addressed text
  | ramGet path text onlyLoads limit => do
    addressed text
    let p ← files.program path
    if onlyLoads then preloaded (machine p lines)
    else ran limit ((machine p lines).run (limit.bound patience)).1

/-! ## What commands come to -/

/-- A shell in which a tool has only just started. -/
structure Fresh (sh : Shell) : Prop where
  logFile : sh.logFile = none
  attached : sh.attached = true
  machine : sh.machine = {}

theorem Fresh.hears {sh : Shell} (h : Fresh sh) (records : List LogRecord) :
    Fresh (sh.hears records) := ⟨h.logFile, h.attached, h.machine⟩

/-- Work that begins with a program comes to what the rest of it comes to for that program. -/
theorem outcome_reading {sh : Shell} (hlog : sh.logFile = none) (path : String)
    {f : Program → Work Unit} {v : Program → Except Failure Unit}
    (hf : ∀ p records, p.WellFormed → ((f p).outcome (sh.hears records)).1 = v p) :
    ((readProgram path >>= f).outcome sh).1 = sh.files.program path >>= v := by
  rcases outcome_readProgram hlog path with ⟨records, hread⟩
  rw [outcome_bind, hread]
  cases hprogram : sh.files.program path with
  | error cause => rfl
  | ok p => exact hf p records (Files.wellFormed_program hprogram)

/-- A program that is read is put into a machine at the terminal. -/
theorem outcome_installing {sh : Shell} (h : Fresh sh) (path : String) {f : Unit → Work Unit}
    {v : Program → Except Failure Unit}
    (hf : ∀ p sh', sh'.plugged = machine p sh.input → sh'.plugged.ByteSized → sh'.logFile = none →
      sh'.patience = sh.patience → ((f ()).outcome sh').1 = v p) :
    ((readProgram path >>= fun p => install p >>= f).outcome sh).1 =
      sh.files.program path >>= v := by
  refine outcome_reading h.logFile path fun p records hp => ?_
  rw [outcome_bind, Work.outcome_install]
  have hplugged : { sh.hears records with
      machine := (sh.hears records).machine.loadProgram p }.plugged = machine p sh.input := by
    have hattached : (sh.hears records).attached = true := h.attached
    have hmachine : (sh.hears records).machine = {} := h.machine
    simp only [Shell.plugged, hattached, hmachine, if_true]
    rfl
  refine hf p _ hplugged ?_ h.logFile rfl
  rw [hplugged]
  exact byteSized_machine hp sh.input

/-- Work that begins with an address comes to what the rest of it comes to, if the address is one. -/
theorem outcome_addressing {sh : Shell} (hlog : sh.logFile = none) (text : Option String)
    {f : Int → Work Unit} {v : Except Failure Unit}
    (hf : ∀ a records, 0 ≤ a ∧ a ≤ 255 → ((f a).outcome (sh.hears records)).1 = v) :
    ((given .address text >>= fun text => readAddress text >>= f).outcome sh).1 =
      addressed text >>= fun _ => v := by
  cases text with
  | none => rfl
  | some text =>
    unfold addressed given readAddress
    simp only [pure_bind, bind_assoc, outcome_bind, outcome_forM_log hlog, outcome_ofExcept]
    cases hread : (Address.read text).1 with
    | error cause => rfl
    | ok a => exact hf a _ (Address.read_mem hread)

/-- A run comes to what is said about it, traced or not, and leaves a machine that can be shown. -/
theorem outcome_ran {sh : Shell} (hlog : sh.logFile = none) (h : sh.plugged.ByteSized)
    (tracing : Bool) (limit : StepLimit) :
    ((runTraced tracing limit).outcome sh).1.map (fun _ => ()) =
      ran limit (sh.plugged.run (limit.bound sh.patience)).1 ∧
    ((runTraced tracing limit).outcome sh).2.machine.steps =
      (sh.plugged.run (limit.bound sh.patience)).2.steps ∧
    ((runTraced tracing limit).outcome sh).2.machine.ByteSized := by
  have hleft := h.run (limit.bound sh.patience)
  rcases h.run_tracer tracing (limit.bound sh.patience) with ⟨trace, hrun⟩
  rw [outcome_runTraced hlog, hrun]
  generalize sh.plugged.run (limit.bound sh.patience) = r at hleft ⊢
  rcases r with ⟨result, m⟩
  have habsorbed : (sh.absorbs m).machine = m := Shell.absorbs_machine sh m
  rcases limit with _ | count | _ <;> rcases result with cause | _ | _ <;>
    exact ⟨rfl, congrArg Machine.steps habsorbed, habsorbed.symm ▸ hleft⟩

theorem outcome_preloaded {sh : Shell} (hlog : sh.logFile = none) (h : sh.plugged.ByteSized) :
    (preload.outcome sh).1.map (fun _ => ()) = preloaded sh.plugged ∧
    (preload.outcome sh).2.machine.ByteSized := by
  unfold preloaded
  rw [outcome_preload hlog]
  cases hpreload : sh.plugged.preload with
  | none => exact ⟨rfl, (sh.absorbs_machine _).symm ▸ h⟩
  | some result => exact ⟨rfl, (sh.absorbs_machine _).symm ▸ h.preload hpreload⟩

/-- A text that can be made is printed. -/
theorem outcome_printText {made : Except Text.TooManyDigits String} (h : ∃ text, made = .ok text)
    (sh : Shell) : ((Work.text made >>= printLine).outcome sh).1 = .ok () := by
  rcases h with ⟨text, rfl⟩
  rfl

/-- Work after which the rest comes to the same whatever it is given. -/
theorem outcome_followed {α : Type} {x : Work α} {f : α → Work Unit} {v r : Except Failure Unit}
    {sh : Shell} (hx : (x.outcome sh).1.map (fun _ => ()) = v)
    (hf : ∀ a, ((f a).outcome (x.outcome sh).2).1 = r) :
    ((x >>= f).outcome sh).1 = v >>= fun _ => r := by
  rw [outcome_bind]
  generalize x.outcome sh = result at hx hf ⊢
  rcases result with ⟨_ | a, sh'⟩
  · exact hx ▸ rfl
  · exact hx ▸ hf a

/-- What comes of work does not change with what is printed after it. -/
theorem outcome_printed {α : Type} {x : Work α} {f : α → Work Unit} {v : Except Failure Unit}
    {sh : Shell} (hx : (x.outcome sh).1.map (fun _ => ()) = v)
    (hf : ∀ a, ((f a).outcome (x.outcome sh).2).1 = .ok ()) : ((x >>= f).outcome sh).1 = v :=
  (outcome_followed hx hf).trans bind_pure_unit

/-- All that is told and shown of a machine after its run can be written, but for the number of
instructions. -/
theorem outcome_afterRun {m : Machine} (h : m.ByteSized) (reason : StopReason) (dump : Bool)
    (sh : Shell) : ((do
      tellStop m reason
      if dump then printLine (← Work.text m.memory.dump) : Work Unit).outcome sh).1 = told m := by
  have hdump : ∀ sh : Shell, ((if dump then Work.text m.memory.dump >>= printLine
      else pure () : Work Unit).outcome sh).1 = .ok () := by
    intro sh
    split
    · exact outcome_printText h.exists_dump sh
    · rfl
  unfold tellStop told
  by_cases hsteps : Text.IsWritable m.steps
  · rw [if_pos hsteps, Text.written_of_isWritable hsteps, Text.written_of_isWritable h.isWritable_pc]
    cases reason with
    | halt => exact hdump _
    | stepLimit => exact hdump _
  · rw [if_neg hsteps, Text.written_of_not_isWritable hsteps]
    rfl

/-- A compilation comes to what its source and its output come to. -/
theorem outcome_compiling {sh : Shell} (hlog : sh.logFile = none) (source : String)
    (target : Option String) : ((compile source target).perform.outcome sh).1 =
      (compile source target).verdict sh.files sh.input sh.patience := by
  rcases outcome_compileFile hlog source target with ⟨records, houtcome⟩
  simp only [perform, verdict, outcome_bind, houtcome]
  cases sh.files.compiled (Path.clean source) with
  | error cause => rfl
  | ok s =>
    cases target with
    | none => rfl
    | some path =>
      cases hopen : sh.files.openForWriting path with
      | error cause =>
        simp only [hopen, Files.write_of_not_open hopen]
        rfl
      | ok opened =>
        rcases Files.write_of_open hopen (Image.render s.program) with ⟨files, hwrite⟩
        simp only [hopen, hwrite]
        rfl

/-- What a command comes to depends on the files, on the lines of the terminal and on patience, and
on nothing else in the shell. -/
theorem outcome_perform {sh : Shell} (h : Fresh sh) (c : Command) :
    (c.perform.outcome sh).1 = c.verdict sh.files sh.input sh.patience := by
  cases c with
  | compile source target => exact outcome_compiling h.logFile source target
  | run path limit trace dump =>
    refine outcome_installing h path fun p sh' hplugged hsized hlog hpatience => ?_
    rcases outcome_ran hlog hsized trace limit with ⟨hran, hsteps, hleft⟩
    rw [hplugged, hpatience] at hran hsteps
    refine outcome_followed hran fun (reason, lines) => ?_
    have htold : told ((machine p sh.input).run (limit.bound sh.patience)).2 =
        told ((runTraced trace limit).outcome sh').2.machine := by
      unfold told
      rw [hsteps]
    rw [htold]
    cases trace with
    | false => exact outcome_afterRun hleft reason dump _
    | true => exact outcome_afterRun hleft reason dump _
  | initRam path =>
    refine outcome_installing h path fun p sh' hplugged hsized hlog _ => ?_
    rcases outcome_preloaded hlog hsized with ⟨hloaded, hleft⟩
    rw [hplugged] at hloaded
    exact outcome_printed hloaded fun _ => outcome_printText hleft.exists_dump _
  | romDump path =>
    exact outcome_reading h.logFile path fun p _ hp => outcome_printText hp.exists_dump _
  | romGet path text =>
    refine outcome_reading h.logFile path fun p records hp => ?_
    have hshown := outcome_addressing (h.hears records).logFile text fun a _ ha =>
      outcome_printText (exists_romLine hp ha) _
    refine hshown.trans ?_
    cases addressed text <;> rfl
  | ramGet path text onlyLoads limit =>
    refine outcome_addressing h.logFile text fun a records ha => ?_
    refine outcome_installing (h.hears records) path fun p sh' hplugged hsized hlog hpatience => ?_
    cases onlyLoads with
    | true =>
      rcases outcome_preloaded hlog hsized with ⟨hloaded, hleft⟩
      rw [hplugged] at hloaded
      exact outcome_printed hloaded fun _ => outcome_printText (hleft.exists_ramLine ha) _
    | false =>
      rcases outcome_ran hlog hsized false limit with ⟨hran, -, hleft⟩
      rw [hplugged, hpatience] at hran
      show (((runTraced false limit >>= fun r => pure r.1) >>= _).outcome sh').1 = _
      rw [bind_assoc]
      exact outcome_printed hran fun _ => outcome_printText (hleft.exists_ramLine ha) _

/-- Whatever a command comes to, it only adds records to the error channel, and it only writes an
image that it has compiled. -/
theorem left_perform {sh : Shell} (hlog : sh.logFile = none) (c : Command) :
    ∃ records, (c.perform.outcome sh).2.errors = sh.errors ++ Shell.shown sh.threshold records ∧
      ((c.perform.outcome sh).2.files = sh.files ∨
        (c.perform.outcome sh).1 = .ok () ∧ ∃ source path s, c = .compile source (some path) ∧
          sh.files.compiled (Path.clean source) = .ok s ∧
          sh.files.write path (Image.render s.program) = .ok (c.perform.outcome sh).2.files) := by
  -- all commands but `compile` leave the files as they are, whatever they come to
  by_cases hcompile : ∃ source target, c = .compile source target
  swap
  · have hheard := leaves_perform (fun source target heq => hcompile ⟨source, target, heq⟩) sh hlog
    rcases hheard.errors with ⟨records, herrors⟩
    exact ⟨records, herrors, .inl hheard.files⟩
  rcases hcompile with ⟨source, target, rfl⟩
  rcases outcome_compileFile hlog source target with ⟨records, houtcome⟩
  simp only [perform, outcome_bind, houtcome]
  cases hcompiled : sh.files.compiled (Path.clean source) with
  | error cause => exact ⟨records, rfl, .inl rfl⟩
  | ok s =>
    cases target with
    | none => exact ⟨records, rfl, .inl rfl⟩
    | some path =>
      cases hwrite : sh.files.write path (Image.render s.program) with
      | error cause =>
        simp only [hwrite]
        exact ⟨records, rfl, .inl rfl⟩
      | ok files =>
        simp only [hwrite]
        exact ⟨records, rfl, .inr ⟨rfl, source, path, s, rfl, hcompiled, hwrite⟩⟩

end Command

end Subleq
