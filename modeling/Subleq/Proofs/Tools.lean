import Mathlib
import Subleq.CommandLine.Compiler
import Subleq.CommandLine.Toolkit
import Subleq.Proofs.Canonical
import Subleq.Proofs.FileTree
import Subleq.Proofs.Tally
import Subleq.Proofs.Work

/-!
# Subleq.Proofs.Tools — what command lines come to

A command line that is accepted asks a tool for something: the compiler for a job
(`Compiler.Asks`), the toolkit for a command (`Toolkit.Asks`). What the compiler writes and reports
depends on the job alone, and not on how strict it is asked to be (`Compiler.main_eq`). All that it
reports is checked against the program here (`Compiler.main_reports`).
-/

namespace Subleq

theorem Files.text_clean {fs : Files} {path text : String} (h : fs.text path = .ok text) :
    fs.text (Path.clean path) = .ok text := by
  unfold Files.text at *
  cases hread : fs.read path with
  | error cause => simp [hread] at h
  | ok content =>
    rw [hread] at h
    rw [read_clean hread]
    exact h

namespace CommandLine

open Work

variable {release : Release} {words : List String} {sh : Shell}

/-- No log file is asked for. -/
def Reading.NoLogFile (r : Reading) : Prop := (r.value? "--log-file").getD "" = ""

instance (r : Reading) : Decidable r.NoLogFile :=
  inferInstanceAs (Decidable ((r.value? "--log-file").getD "" = ""))

theorem outcome_openChannels {r : Reading} (h : r.NoLogFile) (sh : Shell) :
    (openChannels r).outcome sh =
      (.ok (), { sh with threshold := threshold (r.has "--quiet") (r.count "--verbose") }) := by
  have hvalue : r.value? "--log-file" = none ∨ r.value? "--log-file" = some "" := by
    unfold Reading.NoLogFile at h
    cases hr : r.value? "--log-file" with
    | none => exact .inl rfl
    | some path =>
      rw [hr] at h
      exact .inr (congrArg some h)
  unfold openChannels
  rcases hvalue with hvalue | hvalue <;> rw [hvalue] <;> rfl

/-! ## The compiler -/

namespace Compiler

/-- What the compiler is asked to write and to report. -/
structure Job where
  input : String
  output : String
  listing : Bool
  quiet : Bool
  verbosity : Nat
deriving Repr, DecidableEq

/-- What a command line says about it. -/
def Job.of (r : Reading) : Job where
  input := (r.value? "input").getD ""
  output :=
    if (r.value? "--output").getD "" = "" then Console.defaultImage
    else (r.value? "--output").getD ""
  listing := r.has "--listing"
  quiet := r.has "--quiet"
  verbosity := r.count "--verbose"

/-- The command line is accepted and asks for the job, strictly or not, without a log file. -/
def Asks (release : Release) (words : List String) (j : Job) (strict : Bool) : Prop :=
  ∃ r, (grammar release).read words = .ok r ∧ r.surplus = false ∧ r.NoLogFile ∧ Job.of r = j ∧
    r.has "--strict" = strict

namespace Job

/-- The least important level that is shown. -/
def level (j : Job) : Log.Level := threshold j.quiet j.verbosity

/-- The text that is written to the output: the listing of the program, or its image. -/
def text (j : Job) (s : Session) (listing : String) : String :=
  if Path.ending j.output = ".lst" then s!"{listing}\n" else Image.render s.program

/-- The line that tells what was written. -/
def summary (j : Job) (cells names : Nat) : String :=
  if j.listing || j.quiet then ""
  else s!"Compiled {j.input} -> {j.output} ({cells} cells, {names} variables)\n"

/-- The line that tells how much was skipped. -/
def remark (j : Job) (count : Nat) : String :=
  if 0 < count ∧ j.quiet = false then s!"{count} statement(s) skipped\n" else ""

/-- What is left behind in the shell when a program has been compiled, with the files that are there
then. -/
def leaves (j : Job) (s : Session) (listing : String) (sh : Shell) (files : Files) : Shell :=
  { sh with
    threshold := j.level
    files
    output := if j.listing then sh.output ++ s!"{listing}\n" else sh.output
    errors := sh.errors ++ Shell.shown j.level s.log ++ j.summary s.program.size s.symbols.size ++
      j.remark s.errors.length }

/-- The files after a program has been compiled. -/
def Writes (j : Job) (s : Session) (listing : String) (fs fs' : Files) : Prop :=
  if j.listing then fs' = fs else fs.write j.output (j.text s listing) = .ok fs'

end Job

theorem outcome_readSource {path source : String} (h : sh.files.text path = .ok source) :
    (readSource path).outcome sh = (.ok (some source), sh) := by
  unfold readSource
  simp only [outcome_tryCatch, outcome_bind, outcome_readText, h]
  rfl

/-- The end of the work: what was skipped is told. -/
theorem outcome_tellSkipped (j : Job) (s : Session) (status : Nat) (sh : Shell) :
    (if s.errors ≠ [] ∧ (!j.quiet) = true then do
        errorLine s!"{s.errors.length} statement(s) skipped"
        pure status
      else pure status : Work Nat).outcome sh =
      (.ok status, { sh with errors := sh.errors ++ j.remark s.errors.length }) := by
  have hcount : 0 < s.errors.length ∧ j.quiet = false ↔ s.errors ≠ [] ∧ (!j.quiet) = true := by
    rw [List.length_pos_iff, Bool.not_eq_true']
  unfold Job.remark
  by_cases htold : s.errors ≠ [] ∧ (!j.quiet) = true
  · rw [if_pos htold, if_pos (hcount.mpr htold)]
    simp only [outcome_bind, outcome_errorLine, outcome_pure, toString, String.append_assoc]
    rfl
  · rw [if_neg htold, if_neg (hcount.not.mpr htold)]
    simp only [outcome_pure, String.append_empty]

/-- Before that, the output is written, and what was written where is told. -/
theorem outcome_writeOutput {j : Job} (hlisting : j.listing = false) {s : Session}
    {content : String} {files : Files} (hfiles : sh.files.write j.output content = .ok files)
    (status : Nat) {output : String} (houtput : output = j.output) :
    (do
      writeText output content
      if (!j.quiet) = true then do
        errorLine <| s!"Compiled {j.input} -> {output} ({s.program.size} cells, " ++
          s!"{s.symbols.size} variables)"
        if s.errors ≠ [] ∧ (!j.quiet) = true then do
          errorLine s!"{s.errors.length} statement(s) skipped"
          pure status
        else pure status
      else
        if s.errors ≠ [] ∧ (!j.quiet) = true then do
          errorLine s!"{s.errors.length} statement(s) skipped"
          pure status
        else pure status : Work Nat).outcome sh =
      (.ok status, { sh with
        files
        errors := sh.errors ++ j.summary s.program.size s.symbols.size ++
          j.remark s.errors.length }) := by
  have hboth : (j.listing || j.quiet) = true ↔ ¬(!j.quiet) = true := by simp [hlisting]
  rw [houtput, outcome_bind, outcome_writeText]
  simp only [hfiles]
  unfold Job.summary
  by_cases hloud : (!j.quiet) = true
  · rw [if_pos hloud, if_neg (hboth.not.mpr (not_not.mpr hloud)), outcome_bind, outcome_errorLine]
    simp only [outcome_tellSkipped]
    simp only [toString, String.append_assoc]
    rfl
  · rw [if_neg hloud, if_pos (hboth.mpr hloud), outcome_tellSkipped, String.append_empty]

/-- The work goes on with the text that is to be written. -/
theorem outcome_content {j : Job} {s : Session} {listing : String}
    (hlisted : s.listingText = .ok listing) {output : String} (houtput : output = j.output)
    (rest : String → Work Nat) :
    (if Path.ending output = ".lst" then Work.text (s.listingText.map (s!"{·}\n")) >>= rest
      else pure (Image.render s.program) >>= rest).outcome sh =
      (rest (j.text s listing)).outcome sh := by
  rw [hlisted, houtput]
  unfold Job.text
  split <;> rfl

/-- What is written to where no output is named, or an empty one. -/
theorem output_of (r : Reading) : (match r.value? "--output" with
    | none | some "" => Console.defaultImage
    | some path => path) = (Job.of r).output := by
  show _ = if (r.value? "--output").getD "" = "" then _ else _
  split
  · next hvalue => simp [hvalue]
  · next hvalue => simp [hvalue]
  · next path hpath hvalue =>
    have hne : path ≠ "" := hpath
    simp [hvalue, hne]

/-- A job that can be done is done. -/
theorem outcome_perform {r : Reading} (hr : r.NoLogFile) (hlog : sh.logFile = none)
    {source : String} (hread : sh.files.text (Job.of r).input = .ok source) {s : Session}
    (hcompile : Session.compile {} source = (s, none)) {listing : String}
    (hlisted : s.listingText = .ok listing) {files : Files}
    (hfiles : (Job.of r).Writes s listing sh.files files) : (perform r).outcome sh =
      (.ok (if r.has "--strict" ∧ s.diagnostics ≠ [] then 1 else 0),
        (Job.of r).leaves s listing sh files) := by
  have hread' : { sh with threshold := (Job.of r).level }.files.text (Job.of r).input =
      .ok source := hread
  have hsource := outcome_readSource hread'
  have hcompiled : (compile source).outcome { sh with threshold := (Job.of r).level } =
      (.ok s, { sh with threshold := (Job.of r).level }.hears s.log) := by
    rw [outcome_compile]
    swap
    · exact hlog
    rw [hcompile]
  unfold perform
  simp only [Job.of, Job.level] at hsource hcompiled
  simp only [outcome_bind, outcome_openChannels hr, hsource, hcompiled]
  -- being strict decides the status and is not looked at again
  generalize (if r.has "--strict" = true ∧ s.diagnostics ≠ [] then 1 else 0) = status
  unfold Job.Writes at hfiles
  unfold Job.leaves
  cases hlisting : (Job.of r).listing with
  | true =>
    have hasked : r.has "--listing" = true := hlisting
    have hsummary : (Job.of r).summary s.program.size s.symbols.size = "" :=
      if_pos (by rw [hlisting]; rfl)
    rw [if_pos hlisting] at hfiles
    rw [if_pos hasked, if_pos rfl, hlisted, hsummary, hfiles, String.append_empty]
    exact outcome_tellSkipped (Job.of r) s status _
  | false =>
    have hasked : ¬r.has "--listing" = true := by
      intro heq
      cases heq.symm.trans hlisting
    rw [if_neg (by rw [hlisting]; decide)] at hfiles
    have hfiles' : ({ sh with threshold := (Job.of r).level }.hears s.log).files.write
        (Job.of r).output ((Job.of r).text s listing) = .ok files := hfiles
    rw [if_neg hasked]
    simp only [Bool.false_eq_true, if_false]
    exact (outcome_content hlisted (output_of r) _).trans
      (outcome_writeOutput hlisting hfiles' status (output_of r))

/-- Being strict makes a difference to the exit status and to nothing else. -/
theorem main_eq {j : Job} {strict : Bool} (hasks : Asks release words j strict)
    (hlog : sh.logFile = none) {source : String} (hread : sh.files.text j.input = .ok source)
    {s : Session} (hcompile : Session.compile {} source = (s, none)) {listing : String}
    (hlisted : s.listingText = .ok listing) {files : Files}
    (hfiles : j.Writes s listing sh.files files) : main release words sh =
      (.status (if strict ∧ s.diagnostics ≠ [] then 1 else 0), j.leaves s listing sh files) := by
  rcases hasks with ⟨r, hr, hsurplus, hnolog, rfl, rfl⟩
  unfold main Tool.finish
  rw [hr]
  simp only [hsurplus, Bool.false_eq_true, if_false,
    outcome_perform hnolog hlog hread hcompile hlisted hfiles]

end Compiler

/-! ## The toolkit -/

namespace Toolkit

/-- The command line is accepted and asks for the command, with records shown from the level on and
without a log file. -/
def Asks (release : Release) (words : List String) (c : Command) (level : Log.Level) : Prop :=
  ∃ r name rest commands own, (grammar release).read words = .ok r ∧ r.command = name :: rest ∧
    commandGrammar? release name = some commands ∧ commands.read rest = .ok own ∧
    r.surplus = false ∧ own.surplus = false ∧ r.NoLogFile ∧ request name own = .command c ∧
    threshold (r.has "--quiet") (r.count "--verbose") = level

/-- What the toolkit does is what the command does, with bad data told. -/
theorem main_eq {c : Command} {level : Log.Level} (h : Asks release words c level) (sh : Shell) :
    main release words sh =
      Tool.finish (guarded (c.perform >>= fun _ => pure 0)) { sh with threshold := level } := by
  rcases h with ⟨r, name, rest, commands, own, hr, hname, hcommands, hown, hsurplus,
    hsurplus', hnolog, hrequest, rfl⟩
  unfold main
  simp only [hr, hname, hcommands, hown, hsurplus, hsurplus', Bool.or_false, Bool.false_eq_true,
    if_false, hrequest]
  unfold Tool.finish
  rw [outcome_bind, outcome_openChannels hnolog]
  rfl

/-- A source that compiles is written where the output can be opened. -/
theorem main_compile {source target : String} {level : Log.Level}
    (h : Asks release words (.compile source (some target)) level) (hlog : sh.logFile = none)
    {s : Session} (hcompiled : sh.files.compiled (Path.clean source) = .ok s) {files : Files}
    (hfiles : sh.files.write target (Image.render s.program) = .ok files) :
    ∃ sh', main release words sh = (.status 0, sh') ∧ sh'.files = files := by
  have hlog' : { sh with threshold := level }.logFile = none := hlog
  rcases outcome_compileFile hlog' source (some target) with ⟨records, houtcome⟩
  simp only [hcompiled, hfiles] at houtcome
  rw [main_eq h]
  unfold Tool.finish guarded Command.perform
  simp only [outcome_tryCatch, outcome_bind, houtcome]
  exact ⟨_, rfl, rfl⟩

end Toolkit

/-! ## What the compiler reports -/

namespace Compiler

/-- What a job writes and reports when its source has been compiled. -/
structure Reports (release : Release) (j : Job) (source : String) (s : Session) (sh sh' : Shell) :
    Prop where
  /-- The image is written to the output and nowhere else. It shows the program, with empty cells at
  all other addresses, and it is the image that the toolkit writes. -/
  image : j.listing = false → Path.ending j.output ≠ ".lst" →
    sh'.files.read j.output = .ok (.text (Image.render s.program)) ∧
    (∃ place, sh.files.locate j.output = .ok place ∧
      ∀ q, q ≠ place → sh'.files.find? q = sh.files.find? q) ∧
    (∃ p, Image.read (Image.render s.program) = .ok p ∧
      ∀ a : Int, p[a]? = if 0 ≤ a ∧ a ≤ 255 then some (s.program.fetch a) else none) ∧
    ∀ words level, Toolkit.Asks release words (.compile j.input (some j.output)) level →
      ∃ sh'', Toolkit.main release words sh = (.status 0, sh'') ∧ sh''.files = sh'.files
  /-- A listing is printed, with a line for each address in increasing order, and no file is
  written. -/
  listing : j.listing = true → sh'.files = sh.files ∧
    ∃ lines : List String, sh'.output = sh.output ++ s!"{Text.joinLines lines}\n" ∧
      lines.map some = (List.range s.pc.toNat).map fun i : Nat => s.lineAt? i
  /-- What is told are the cells up to the program counter, the different names that are defined,
  and the lines that are neither blank nor in the listing. -/
  errors : (s.program.size : Int) = s.pc ∧ ∃ skipped : Nat,
    (∃ entries, s.listing.map (·.source) = "preamble" :: entries ∧
      Sorted (Text.numberedLines source) entries (s.errors.map (·.line)) ∧
      skipped + entries.length = (Session.inhabited source).length) ∧
    sh'.errors = sh.errors ++ Shell.shown j.level s.log ++
      j.summary s.program.size s.definedNames.toFinset.card ++ j.remark skipped

/-- A readable source that compiles is written and reported on as it should be. Being strict makes a
difference to the exit status if there is anything to report, and to nothing else. -/
theorem main_reports {j : Job} {strict : Bool} (hasks : Asks release words j strict)
    (hlog : sh.logFile = none) {source : String} (hread : sh.files.text j.input = .ok source)
    {s : Session} (hcompile : Session.compile {} source = (s, none))
    (hopen : j.listing = false → ∃ opened, sh.files.openForWriting j.output = .ok opened) :
    ∃ sh', main release words sh =
        (.status (if strict ∧ s.diagnostics ≠ [] then 1 else 0), sh') ∧
      Reports release j source s sh sh' ∧
      ∀ words' strict', Asks release words' j strict' → (main release words' sh).2 = sh' := by
  have hsound := Session.sound_of_compile hcompile
  rcases hsound.laidOut.listed with ⟨lines, hlisted, hlines⟩
  have hfiles : ∃ files, j.Writes s (Text.joinLines lines) sh.files files := by
    unfold Job.Writes
    cases hlisting : j.listing with
    | true => exact ⟨sh.files, rfl⟩
    | false =>
      rcases hopen hlisting with ⟨opened, hopened⟩
      simpa using Files.write_of_open hopened (j.text s (Text.joinLines lines))
  rcases hfiles with ⟨files, hfiles⟩
  have hmain : ∀ words' strict', Asks release words' j strict' → main release words' sh =
      (.status (if strict' ∧ s.diagnostics ≠ [] then 1 else 0),
        j.leaves s (Text.joinLines lines) sh files) :=
    fun words' strict' h => main_eq h hlog hread hcompile hlisted hfiles
  refine ⟨_, hmain words strict hasks, ?_, fun words' strict' h => by rw [hmain words' strict' h]⟩
  constructor
  case image =>
    intro hlisting hending
    have hwrite : sh.files.write j.output (Image.render s.program) = .ok files := by
      simpa [Job.Writes, Job.text, hlisting, hending] using hfiles
    -- the toolkit cleans the path before it reads the file, and finds the same file
    have hcompiled : sh.files.compiled (Path.clean j.input) = .ok s := by
      unfold Files.compiled
      rw [Files.text_clean hread]
      simp only [hcompile]
    refine ⟨Files.read_write hwrite, ?_, ?_, ?_⟩
    · rcases Files.find?_write hwrite with ⟨place, hplace, -, hframe⟩
      exact ⟨place, hplace, hframe⟩
    · refine ⟨_, Image.read_render _, fun a => ?_⟩
      rw [Image.get?_readBack, Cell.normalise_eq (hsound.wellFormed.fits a)]
      exact if_congr (by omega) rfl rfl
    · exact fun words' level h => Toolkit.main_compile h hlog hcompiled hwrite
  case listing =>
    intro hlisting
    have hsame : files = sh.files := by simpa [Job.Writes, hlisting] using hfiles
    exact ⟨hsame, lines, if_pos hlisting, hlines⟩
  case errors =>
    -- the errors are as many as the lines without an entry
    rcases Session.sorted_compile hcompile with ⟨entries, hentries, hsorted⟩
    have hcount := hsorted.length_eq
    rw [List.length_map] at hcount
    refine ⟨hsound.size, s.errors.length, ⟨entries, hentries, hsorted, hcount⟩, ?_⟩
    rw [← hsound.size_symbols]
    rfl

/-- A program of which one line is skipped. -/
def partly : String := "DEF a 1\nMOV a b\n"

/-- A shell with a file that holds it. -/
def shelf : Shell := { files := ⟨[(["p"], .file (.text partly))]⟩ }

/-- The skipped line makes the exit status 1 where the compiler is strict, and the image is written
all the same. -/
theorem main_reports_partly : ∃ s sh',
    main .late ["p", "--strict"] shelf = (.status 1, sh') ∧
    Reports .late ⟨"p", Console.defaultImage, false, false, 0⟩ partly s shelf sh' ∧
    (main .late ["p"] shelf).2 = sh' ∧
    (Toolkit.main .late ["compile", "p"] shelf).2.files = sh'.files := by
  have hasks : Asks .late ["p", "--strict"] ⟨"p", Console.defaultImage, false, false, 0⟩ true :=
    ⟨⟨[⟨"input", some "p"⟩, ⟨"--strict", some ""⟩], false, []⟩, by decide +kernel, rfl,
      by decide +kernel, by decide +kernel, by decide +kernel⟩
  have hlax : Asks .late ["p"] ⟨"p", Console.defaultImage, false, false, 0⟩ false :=
    ⟨⟨[⟨"input", some "p"⟩], false, []⟩, by decide +kernel, rfl, by decide +kernel,
      by decide +kernel, by decide +kernel⟩
  have htoolkit :
      Toolkit.Asks .late ["compile", "p"] (.compile "p" (some Console.defaultImage)) .warning :=
    ⟨⟨[], false, ["compile", "p"]⟩, "compile", ["p"], _, ⟨[⟨"input", some "p"⟩], false, []⟩,
      by decide +kernel, rfl, rfl, by decide +kernel, rfl, rfl, by decide +kernel,
      by decide +kernel, by decide +kernel⟩
  have hlog : shelf.logFile = none := rfl
  have hread : shelf.files.text "p" = .ok partly := by decide +kernel
  have hcompile : Session.compile {} partly = ((Session.compile {} partly).1, none) :=
    Session.compile_eq (by decide +kernel)
  have hopen : shelf.files.openForWriting Console.defaultImage =
      .ok ([Console.defaultImage], none) := by decide +kernel
  have hdiagnostics : (Session.compile {} partly).1.diagnostics ≠ [] := by decide +kernel
  rcases main_reports hasks hlog hread hcompile fun _ => ⟨_, hopen⟩ with
    ⟨sh', hmain, hreports, hsame⟩
  rw [if_pos ⟨rfl, hdiagnostics⟩] at hmain
  have hending : Path.ending Console.defaultImage ≠ ".lst" := by decide +kernel
  rcases (hreports.image rfl hending).2.2.2 _ _ htoolkit with ⟨sh'', htoolkit', hfiles⟩
  refine ⟨_, sh', hmain, hreports, hsame _ _ hlax, ?_⟩
  rw [htoolkit', hfiles]

end Compiler

end CommandLine

end Subleq
