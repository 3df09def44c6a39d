import Mathlib
import Subleq.Proofs.CommandLines
import Subleq.Proofs.Tools
import Subleq.Proofs.Verdicts

/-!
# Subleq.Proofs.Endings — how the toolkit ends

From what a command comes to it is read off how the toolkit ends. Bad data of any kind is told in
one line, and for each command there is a list of what may be bad (`Command.Fails`,
`bad_verdict_iff`). All else that can go wrong is a file that is there but cannot be used, or a
terminal that has no more lines (`Command.orderly_verdict`, `main_ends`).
-/

namespace Subleq

open Work

/-! ## Bad data -/

namespace Failure

/-- The line that tells of bad data and of missing files. -/
def report? (cause : Failure) : Option String :=
  match cause.kind with
  | .badValue | .badImage | .uninitialized => some s!"Error: {cause.message}"
  | .missingFile path => some s!"Error: File not found: {path}"
  | _ => none

/-- The failure is one of bad data or of a missing file. -/
def IsBad (cause : Failure) : Prop := cause.report?.isSome

theorem isBad_file_iff (cause : FileError) :
    (file cause).IsBad ↔ cause.kind = .notFound ∨ cause.kind = .nullCharacter := by
  rcases cause with ⟨kind, path⟩
  cases kind <;> simp [IsBad, report?, Failure.kind]

end Failure

/-- There is no result because of bad data or a missing file. -/
def Bad {α : Type} (x : Except Failure α) : Prop := ∃ cause, x = .error cause ∧ cause.IsBad

theorem bad_bind {α β : Type} (x : Except Failure α) (f : α → Except Failure β) :
    Bad (x >>= f) ↔ Bad x ∨ ∃ a, x = .ok a ∧ Bad (f a) := by
  cases x with
  | error cause =>
    show Bad (.error cause) ↔ _
    simp [Bad]
  | ok a =>
    show Bad (f a) ↔ _
    simp [Bad]

namespace Files

variable {fs : Files} {path : String}

/-- There is no file to be read, or what it holds is no text. -/
inductive Unreadable (fs : Files) (path : String) : Prop where
  | file (cause : FileError) (h : fs.read path = .error cause)
      (hkind : cause.kind = .notFound ∨ cause.kind = .nullCharacter)
  | encoding (content : Content) (h : fs.read path = .ok content)
      (cause : Text.Utf8.Fault) (hcontent : content.read = .error cause)

/-- There is no source to be read, or one with a decimal numeral that is too long. -/
inductive Uncompiled (fs : Files) (path : String) : Prop where
  | source (h : fs.Unreadable path)
  | digits (source : String) (h : fs.text path = .ok source) (cause : Text.TooManyDigits)
      (hcompile : (Session.compile {} source).2 = some cause)

/-- There is no image to be read, or one that is malformed. -/
inductive NoImage (fs : Files) (path : String) : Prop where
  | image (h : fs.Unreadable (Path.clean path))
  | malformed (text : String) (h : fs.text (Path.clean path) = .ok text) (cause : Image.Unreadable)
      (hread : Image.read text = .error cause)

/-- There is no program for the path, be it of an image or of a source. -/
def NoProgram (fs : Files) (path : String) : Prop :=
  if Path.ending path = ".mif" then fs.NoImage path else fs.Uncompiled path

theorem bad_text_iff : Bad (fs.text path) ↔ fs.Unreadable path := by
  unfold text Bad
  constructor
  · rintro ⟨cause, htext, hbad⟩
    cases hread : fs.read path with
    | error cause' =>
      rw [hread] at htext
      cases htext
      exact .file cause' hread ((Failure.isBad_file_iff cause').mp hbad)
    | ok content =>
      rw [hread] at htext
      cases hcontent : content.read with
      | error cause' => exact .encoding content hread cause' hcontent
      | ok s => simp [hcontent, Except.mapError] at htext
  · rintro (⟨cause, hread, hkind⟩ | ⟨content, hread, cause, hcontent⟩)
    · rw [hread]
      exact ⟨_, rfl, (Failure.isBad_file_iff cause).mpr hkind⟩
    · rw [hread]
      simp only [hcontent]
      exact ⟨_, rfl, rfl⟩

theorem compiled_eq (fs : Files) (path : String) :
    fs.compiled path = fs.text path >>= fun source =>
      match Session.compile {} source with
      | (_, some cause) => .error (.tooManyDigits cause)
      | (s, none) => .ok s := by
  unfold compiled
  cases fs.text path <;> rfl

theorem image_eq (fs : Files) (path : String) : fs.image path =
    fs.text (Path.clean path) >>= fun text => (Image.read text).mapError .image := by
  delta image
  cases fs.text (Path.clean path) <;> rfl

theorem bad_compiled_iff : Bad (fs.compiled path) ↔ fs.Uncompiled path := by
  have hbad : ∀ source, Bad (match Session.compile {} source with
      | (_, some cause) => .error (.tooManyDigits cause)
      | (s, none) => .ok s : Except Failure Session) ↔
        ∃ cause, (Session.compile {} source).2 = some cause := by
    intro source
    rcases Session.compile {} source with ⟨s, _ | cause⟩
    · simp [Bad]
    · simp [Bad, Failure.IsBad, Failure.report?, Failure.kind]
  rw [compiled_eq, bad_bind, bad_text_iff]
  simp only [hbad]
  constructor
  · rintro (hsource | ⟨source, htext, cause, hcompile⟩)
    · exact .source hsource
    · exact .digits source htext cause hcompile
  · rintro (hsource | ⟨source, htext, cause, hcompile⟩)
    · exact .inl hsource
    · exact .inr ⟨source, htext, cause, hcompile⟩

theorem bad_image_iff : Bad (fs.image path) ↔ fs.NoImage path := by
  have hbad : ∀ text, Bad ((Image.read text).mapError Failure.image) ↔
      ∃ cause, Image.read text = .error cause := by
    intro text
    cases Image.read text with
    | error cause => simp [Bad, Except.mapError, Failure.IsBad, Failure.report?, Failure.kind]
    | ok p => simp [Bad, Except.mapError]
  rw [image_eq, bad_bind, bad_text_iff]
  simp only [hbad]
  constructor
  · rintro (himage | ⟨text, htext, cause, hread⟩)
    · exact .image himage
    · exact .malformed text htext cause hread
  · rintro (himage | ⟨text, htext, cause, hread⟩)
    · exact .inl himage
    · exact .inr ⟨text, htext, cause, hread⟩

theorem bad_program_iff : Bad (fs.program path) ↔ fs.NoProgram path := by
  unfold program NoProgram
  split
  · exact bad_image_iff
  · rw [← bad_compiled_iff]
    cases fs.compiled path <;> simp [Bad, Except.map]

end Files

namespace Command

variable {files : Files} {lines : List Terminal.Line} {patience : Int} {c : Command}

/-- The run reads an operand that was never written, a number that is too long, or what is no text. -/
def RunFails (limit : StepLimit) (patience : Int) (m : Machine) : Prop :=
  ∃ fault, (m.run (limit.bound patience)).1 = .error fault ∧
    ((∃ address pc, fault = .uninitialized address pc) ∨
      (∃ cause, fault = .input (.tooManyDigits cause)) ∨ ∃ cause, fault = .input (.encoding cause))

/-- The run comes to an end after so many instructions that their number cannot be written. -/
def RunTooLong (limit : StepLimit) (patience : Int) (m : Machine) : Prop :=
  ran limit (m.run (limit.bound patience)).1 = .ok () ∧
    ¬Text.IsWritable (m.run (limit.bound patience)).2.steps

/-- The address is none that exists. -/
def BadAddress (text : Option String) : Prop :=
  ∃ s, text = some s ∧ ∃ cause, (Address.read s).1 = .error cause

/-- The reasons for which a command is ended with exit status 1. -/
def Fails (files : Files) (lines : List Terminal.Line) (patience : Int) : Command → Prop
  | compile source target => files.Uncompiled (Path.clean source) ∨
      ∃ s path cause, files.compiled (Path.clean source) = .ok s ∧ target = some path ∧
        files.openForWriting path = .error cause ∧
        (cause.kind = .notFound ∨ cause.kind = .nullCharacter)
  | run path limit _ _ => files.NoProgram path ∨
      ∃ p, files.program path = .ok p ∧
        (RunFails limit patience (machine p lines) ∨ RunTooLong limit patience (machine p lines))
  | initRam path | romDump path => files.NoProgram path
  | romGet path text => files.NoProgram path ∨
      ∃ p, files.program path = .ok p ∧ BadAddress text
  | ramGet path text onlyLoads limit => BadAddress text ∨ files.NoProgram path ∨
      ∃ p, files.program path = .ok p ∧ onlyLoads = false ∧
        RunFails limit patience (machine p lines)

/-- The address, where there is one, has a value. -/
def HasAddress : Command → Prop
  | romGet _ text | ramGet _ text _ _ => text ≠ none
  | compile .. | run .. | initRam _ | romDump _ => True

/-- A run of a machine at the terminal faults for these reasons only. -/
theorem fault_of_run {p : Program} (hp : p.WellFormed) {limit : Int} {fault : Fault}
    (h : ((machine p lines).run limit).1 = .error fault) :
    (∃ address pc, fault = .uninitialized address pc) ∨ fault = .input .textEnded ∨
      (∃ cause, fault = .input (.tooManyDigits cause)) ∨ ∃ cause, fault = .input (.encoding cause) := by
  have hinput : (machine p lines).memory.FailsWith Terminal.Refusal := by
    rintro i ⟨rfl⟩
    exact Terminal.failsWith_input lines
  rcases (byteSized_machine hp lines).fault_of_run hinput h with hlacks |
    ⟨cause, rfl | ⟨n, rfl⟩ | ⟨fault, rfl⟩, rfl⟩
  · exact .inl hlacks
  · exact .inr (.inl rfl)
  · exact .inr (.inr (.inl ⟨n, rfl⟩))
  · exact .inr (.inr (.inr ⟨fault, rfl⟩))

theorem bad_ran_iff {p : Program} (hp : p.WellFormed) {limit : StepLimit} :
    Bad (ran limit ((machine p lines).run (limit.bound patience)).1) ↔
      RunFails limit patience (machine p lines) := by
  unfold RunFails
  cases hrun : ((machine p lines).run (limit.bound patience)).1 with
  | ok reason =>
    cases limit <;> cases reason <;>
      simp [ran, Bad, Failure.IsBad, Failure.report?, Failure.kind]
  | error fault =>
    have hran : ran limit (.error fault) = .error (.fault fault) := by cases limit <;> rfl
    rw [hran]
    rcases fault_of_run hp hrun with ⟨address, pc, rfl⟩ | rfl | ⟨cause, rfl⟩ | ⟨cause, rfl⟩ <;>
      simp [Bad, Failure.IsBad, Failure.report?, Failure.kind]

theorem bad_told_iff (m : Machine) : Bad (told m) ↔ ¬Text.IsWritable m.steps := by
  unfold told
  split
  · next h => simp [Bad, h]
  · next h => simp [Bad, h, Failure.IsBad, Failure.report?, Failure.kind]

theorem bad_ran_told_iff {p : Program} (hp : p.WellFormed) {limit : StepLimit} :
    Bad (ran limit ((machine p lines).run (limit.bound patience)).1 >>= fun _ =>
        told ((machine p lines).run (limit.bound patience)).2) ↔
      RunFails limit patience (machine p lines) ∨ RunTooLong limit patience (machine p lines) := by
  rw [bad_bind, bad_ran_iff hp, bad_told_iff]
  apply or_congr_right
  constructor
  · rintro ⟨⟨⟩, hran, hsteps⟩
    exact ⟨hran, hsteps⟩
  · rintro ⟨hran, hsteps⟩
    exact ⟨(), hran, hsteps⟩

theorem not_bad_preloaded (m : Machine) : ¬Bad (preloaded m) := by
  unfold preloaded
  split <;> simp [Bad, Failure.IsBad, Failure.report?, Failure.kind]

theorem bad_addressed_iff {text : Option String} : Bad (addressed text) ↔ BadAddress text := by
  unfold addressed BadAddress
  cases text with
  | none => simp [Bad, Failure.IsBad, Failure.report?, Failure.kind]
  | some s =>
    cases hread : (Address.read s).1 with
    | ok a => simp [hread, Bad]
    | error cause => simp [hread, Bad, Failure.IsBad, Failure.report?, Failure.kind]

theorem addressed_of_not_badAddress {text : Option String} (hvalue : text ≠ none)
    (h : ¬BadAddress text) : addressed text = .ok () := by
  unfold addressed BadAddress at *
  cases text with
  | none => exact absurd rfl hvalue
  | some s =>
    cases hread : (Address.read s).1 with
    | ok a => simp only [hread]
    | error cause => exact absurd ⟨s, rfl, cause, hread⟩ h

/-- Bad data is met for the reasons given, and for no others. -/
theorem bad_verdict_iff (hoptions : c.HasOptionValues) (haddress : c.HasAddress) :
    Bad (c.verdict files lines patience) ↔ c.Fails files lines patience := by
  have hrun : ∀ {path limit}, (∃ p, files.program path = .ok p ∧
        Bad (ran limit ((machine p lines).run (limit.bound patience)).1)) ↔
      ∃ p, files.program path = .ok p ∧ RunFails limit patience (machine p lines) :=
    exists_congr fun p => and_congr_right fun hp => bad_ran_iff (Files.wellFormed_program hp)
  cases c with
  | compile source target =>
    simp only [verdict, Fails, bad_bind, Files.bad_compiled_iff]
    apply or_congr_right
    cases target with
    | none => exact absurd rfl hoptions
    | some path =>
      have hopened : Bad ((files.openForWriting path).mapError Failure.file >>= fun _ => .ok ()) ↔
          ∃ cause, files.openForWriting path = .error cause ∧
            (cause.kind = .notFound ∨ cause.kind = .nullCharacter) := by
        cases files.openForWriting path with
        | ok opened => simp [Bad, Except.mapError, bind, Except.bind]
        | error cause => simp [Bad, Except.mapError, bind, Except.bind, Failure.isBad_file_iff]
      simp only [hopened]
      constructor
      · rintro ⟨s, hs, cause, hcause, hkind⟩
        exact ⟨s, path, cause, hs, rfl, hcause, hkind⟩
      · rintro ⟨s, path', cause, hs, hpath, hcause, hkind⟩
        cases hpath
        exact ⟨s, hs, cause, hcause, hkind⟩
  | run path limit trace dump =>
    simp only [verdict, Fails]
    rw [bad_bind, Files.bad_program_iff]
    exact or_congr_right (exists_congr fun p => and_congr_right fun hp =>
      bad_ran_told_iff (Files.wellFormed_program hp))
  | initRam path =>
    simp only [verdict, Fails, bad_bind, Files.bad_program_iff, not_bad_preloaded, and_false,
      exists_false, or_false]
  | romDump path =>
    simp only [verdict, Fails, bad_bind, Files.bad_program_iff]
    simp [Bad]
  | romGet path text =>
    simp only [verdict, Fails, bad_bind, Files.bad_program_iff, bad_addressed_iff]
  | ramGet path text onlyLoads limit =>
    simp only [verdict, Fails]
    -- here the address is looked at first, so a good one is needed to come to the program
    rw [bad_bind, bad_addressed_iff]
    by_cases hbad : BadAddress text
    · simp only [hbad, true_or]
    have hok := addressed_of_not_badAddress haddress hbad
    simp only [hbad, false_or, hok, bad_bind, Files.bad_program_iff, true_and, exists_const]
    apply or_congr_right
    cases onlyLoads with
    | true => simp [not_bad_preloaded]
    | false =>
      simp only [Bool.false_eq_true, if_false, true_and]
      exact hrun

/-! ## Endings -/

end Command

/-- The failure is one of bad data, of a file, of a terminal without more lines, or of patience. -/
def Failure.IsOrderly (cause : Failure) : Prop :=
  cause.IsBad ∨ (∃ e, cause = .file e) ∨ cause = .fault (.input .textEnded) ∨ cause = .unending

/-- If there is no result, then because of such a failure. -/
def Orderly {α : Type} (x : Except Failure α) : Prop := ∀ cause, x = .error cause → cause.IsOrderly

theorem orderly_ok {α : Type} (a : α) : Orderly (.ok a) := fun _ heq => by cases heq

theorem Orderly.bind {α β : Type} {x : Except Failure α} {f : α → Except Failure β}
    (hx : Orderly x) (hf : ∀ a, Orderly (f a)) : Orderly (x >>= f) := by
  cases x with
  | error cause => exact fun cause' heq => hx cause' (by cases heq; rfl)
  | ok a => exact hf a

theorem orderly_mapError {ε α : Type} {failure : ε → Failure} (h : ∀ e, (failure e).IsOrderly)
    (x : Except ε α) : Orderly (x.mapError failure) := by
  intro cause heq
  cases x with
  | ok a => cases heq
  | error e =>
    cases heq
    exact h e

namespace Files

variable (fs : Files) (path : String)

theorem orderly_text : Orderly (fs.text path) := by
  unfold text
  cases fs.read path with
  | error cause => exact fun _ heq => .inr (.inl ⟨cause, by cases heq; rfl⟩)
  | ok content =>
    refine orderly_mapError (fun e => ?_) _
    exact .inl rfl

theorem orderly_compiled : Orderly (fs.compiled path) := by
  rw [compiled_eq]
  refine (fs.orderly_text path).bind fun source => ?_
  split
  · intro cause heq
    cases heq
    exact .inl rfl
  · exact nofun

theorem orderly_program : Orderly (fs.program path) := by
  unfold program
  split
  · rw [image_eq]
    refine (fs.orderly_text _).bind fun text => orderly_mapError (fun e => ?_) _
    exact .inl rfl
  · have hcompiled := fs.orderly_compiled path
    cases hc : fs.compiled path with
    | ok s => exact nofun
    | error cause =>
      intro cause' heq
      cases heq
      exact hcompiled cause hc

end Files

namespace Command

variable {files : Files} {lines : List Terminal.Line} {patience : Int} {c : Command}

theorem orderly_ran {limit : StepLimit} (hlimit : limit ≠ .missing) {p : Program}
    (hp : p.WellFormed) {bound : Int} : Orderly (ran limit ((machine p lines).run bound).1) := by
  intro cause heq
  cases hrun : ((machine p lines).run bound).1 with
  | ok reason =>
    rw [hrun] at heq
    cases limit with
    | missing => exact absurd rfl hlimit
    | steps count => cases heq
    | unlimited =>
      cases reason with
      | halt => cases heq
      | stepLimit =>
        cases heq
        exact .inr (.inr (.inr rfl))
  | error fault =>
    have hran : ran limit (.error fault) = .error (.fault fault) := by cases limit <;> rfl
    rw [hrun, hran] at heq
    cases heq
    rcases fault_of_run hp hrun with ⟨address, pc, rfl⟩ | rfl | ⟨cause, rfl⟩ | ⟨cause, rfl⟩
    · exact .inl rfl
    · exact .inr (.inr (.inl rfl))
    · exact .inl rfl
    · exact .inl rfl

theorem orderly_told (m : Machine) : Orderly (told m) := by
  unfold told
  split
  · exact nofun
  · intro cause heq
    cases heq
    exact .inl rfl

theorem orderly_preloaded (m : Machine) : Orderly (preloaded m) := by
  unfold preloaded
  split
  · exact nofun
  · intro cause heq
    cases heq
    exact .inr (.inr (.inr rfl))

theorem orderly_addressed {text : Option String} (hvalue : text ≠ none) :
    Orderly (addressed text) := by
  intro cause heq
  -- an address that is not bad is read, so the failure is that of a bad one
  by_cases hbad : BadAddress text
  · rcases bad_addressed_iff.mpr hbad with ⟨cause', hcause', hbad'⟩
    rw [hcause'] at heq
    cases heq
    exact .inl hbad'
  · rw [addressed_of_not_badAddress hvalue hbad] at heq
    cases heq

theorem orderly_verdict (hoptions : c.HasOptionValues) (haddress : c.HasAddress) :
    Orderly (c.verdict files lines patience) := by
  -- work on a program is work on one that comes from a file
  have hprogram : ∀ {path} {v : Program → Except Failure Unit},
      (∀ p, p.WellFormed → Orderly (v p)) → Orderly (files.program path >>= v) := by
    intro path v hv
    have horderly := files.orderly_program path
    cases hread : files.program path with
    | error cause =>
      rw [hread] at horderly
      exact fun cause' heq => horderly cause' (by cases heq; rfl)
    | ok p => exact hv p (Files.wellFormed_program hread)
  cases c with
  | compile source target =>
    simp only [verdict]
    refine (files.orderly_compiled _).bind fun s => ?_
    cases target with
    | none => exact absurd rfl hoptions
    | some path =>
      exact (orderly_mapError (fun e => .inr (.inl ⟨e, rfl⟩)) _).bind fun _ => orderly_ok _
  | run path limit trace dump =>
    exact hprogram fun p hp => (orderly_ran hoptions hp).bind fun _ => orderly_told _
  | initRam path => exact hprogram fun p _ => orderly_preloaded _
  | romDump path => exact hprogram fun p _ => orderly_ok _
  | romGet path text => exact hprogram fun p _ => orderly_addressed haddress
  | ramGet path text onlyLoads limit =>
    refine (orderly_addressed haddress).bind fun _ => hprogram fun p hp => ?_
    cases onlyLoads with
    | true => exact orderly_preloaded _
    | false => exact orderly_ran hoptions hp

end Command

namespace CommandLine

/-- The tool ends with one of its exit statuses, or because of a file that is there but cannot be
used, or of a terminal that has no more lines. -/
def Ending.IsOrderly (ending : Ending) : Prop :=
  ending = .status 0 ∨ ending = .status 1 ∨
    (∃ cause, ending = .failed (.file cause) ∧ cause.kind ≠ .notFound ∧
      cause.kind ≠ .nullCharacter) ∨
    ending = .failed (.fault (.input .textEnded))

namespace Toolkit

variable {release : Release} {words : List String} {c : Command} {level : Log.Level}

/-- The shell that the toolkit starts in. -/
def opening (files : Files) (lines : List Terminal.Line) (patience : Int) : Shell :=
  { files, input := lines, patience }

theorem outcome_guarded (work : Work Nat) (sh : Shell) : (guarded work).outcome sh =
    match work.outcome sh with
    | (.ok code, left) => (.ok code, left)
    | (.error cause, left) =>
      match cause.report? with
      | some line => (.ok 1, { left with errors := s!"{left.errors}{line}\n" })
      | none => (.error cause, left) := by
  unfold guarded
  rw [outcome_tryCatch]
  rcases work.outcome sh with ⟨cause | code, sh'⟩
  · unfold Failure.report?
    dsimp only
    generalize cause.kind = kind
    cases kind <;> rfl
  · rfl

/-- How the toolkit ends when a command has come to a result. -/
def conclude : Except Failure Unit × Shell → Ending × Shell
  | (.ok _, sh) => (.status 0, sh)
  | (.error cause, sh) =>
    match cause.report? with
    | some line => (.status 1, { sh with errors := s!"{sh.errors}{line}\n" })
    | none => (.failed cause, sh)

theorem main_eq_conclude (hasks : Asks release words c level) (sh : Shell) :
    main release words sh = conclude (c.perform.outcome { sh with threshold := level }) := by
  rw [main_eq hasks]
  unfold Tool.finish
  rw [outcome_guarded, outcome_bind]
  rcases c.perform.outcome { sh with threshold := level } with ⟨cause | _, sh'⟩
  · unfold conclude
    simp only
    cases cause.report? <;> rfl
  · rfl

/-- What is told begins in the same way whatever it is. -/
theorem report?_eq {cause : Failure} {line : String} (h : cause.report? = some line) :
    ∃ message : String, line = s!"Error: {message}" := by
  unfold Failure.report? at h
  split at h
  · exact ⟨cause.message, (Option.some.inj h).symm⟩
  · exact ⟨cause.message, (Option.some.inj h).symm⟩
  · exact ⟨cause.message, (Option.some.inj h).symm⟩
  · next path _ =>
    refine ⟨s!"File not found: {path}", (Option.some.inj h).symm.trans ?_⟩
    simp only [toString, ← String.append_assoc]
    rfl
  · cases h

/-- What is wrong with the data is told in one line. -/
theorem conclude_of_isBad {cause : Failure} (h : cause.IsBad) (sh : Shell) :
    ∃ message : String, conclude (.error cause, sh) =
      (.status 1, { sh with errors := sh.errors ++ s!"Error: {message}\n" }) := by
  rcases Option.isSome_iff_exists.mp h with ⟨line, hreport⟩
  rcases report?_eq hreport with ⟨message, rfl⟩
  refine ⟨message, ?_⟩
  simp only [conclude, hreport, toString, String.append_assoc]

theorem conclude_of_not_isBad {cause : Failure} (h : ¬cause.IsBad) (sh : Shell) :
    conclude (.error cause, sh) = (.failed cause, sh) := by
  have hreport : cause.report? = none := by simpa [Failure.IsBad] using h
  simp only [conclude, hreport]

/-- How the toolkit ends on a command, and what it leaves behind. -/
structure Ends (c : Command) (level : Log.Level) (files : Files) (lines : List Terminal.Line)
    (patience : Int) (ending : Ending) (sh' : Shell) : Prop where
  orderly : ending.IsOrderly
  /-- Exit status 1 is that of bad data, for the reasons listed there. -/
  fails : ending = .status 1 ↔ c.Fails files lines patience
  /-- With exit status 1 one report ends the error channel, which otherwise shows records only. -/
  errors : ∃ (records : List LogRecord) (message : String), sh'.errors =
    Shell.shown level records ++ if ending = .status 1 then s!"Error: {message}\n" else ""
  /-- No file is changed but the output of a compilation that ends with exit status 0. -/
  files : sh'.files = files ∨ ending = .status 0 ∧ ∃ source path s,
    c = .compile source (some path) ∧ files.compiled (Path.clean source) = .ok s ∧
      files.write path (Image.render s.program) = .ok sh'.files

/-- What a command line of the late release asks for has the values of its options. -/
theorem Asks.hasOptionValues (h : Asks .late words c level) : c.HasOptionValues := by
  rcases h with ⟨r, name, rest, commands, own, -, -, hcommands, hown, -, -, -, hrequest, -⟩
  exact hasOptionValues_of_late hcommands hown hrequest

/-- Two programs, of which the second takes a number from the port, and a directory. -/
def drawer : Files := ⟨[(["p"], .file (.text "DEF a 1\n")), (["d"], .directory),
  (["r"], .file (.text "DEF a 0\nMOV ioPort a\n"))]⟩

/-- An octet that no text begins with. -/
def noText : Terminal.Line := .undecodable ⟨0, 0, 0xff, .invalidStart⟩

end Toolkit

end CommandLine

end Subleq
