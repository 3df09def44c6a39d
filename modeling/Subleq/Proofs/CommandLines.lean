import Mathlib
import Subleq.CommandLine.Toolkit

/-!
# Subleq.Proofs.CommandLines — where the values of a command line come from

Whatever the words of a command line are: what has been read is bound to the grammar's own options and
arguments, and an option that takes a number has one (`Grammar.binds_read`). In the late release an
option that was given always has its value, so that the commands of the toolkit have theirs
(`Toolkit.hasOptionValues_of_late`).
-/

namespace Subleq

namespace CommandLine

namespace Grammar

variable {g : Grammar} {spec : OptionSpec} {joined : Joined} {word : String}

/-! ## Words -/

theorem mem_options_of_mem_names {name : List Char} (h : (name, spec) ∈ g.names) :
    spec ∈ g.options := by
  rcases List.mem_flatMap.mp h with ⟨spec', hspec, hname⟩
  rcases List.mem_map.mp hname with ⟨_, _, hpair⟩
  cases hpair
  exact hspec

theorem mem_options_of_find? {name : List Char} (h : g.find? name = some spec) :
    spec ∈ g.options := by
  rcases List.lookup_eq_some_iff.mp h with ⟨before, after, hnames, -⟩
  have hmem : (name, spec) ∈ g.names := by simp [hnames]
  exact mem_options_of_mem_names hmem

theorem mem_options_of_candidates {cs : List Char} (h : (spec, joined) ∈ g.candidates cs) :
    spec ∈ g.options := by
  unfold candidates at h
  split at h
  · rcases List.mem_filterMap.mp h with ⟨⟨name, spec'⟩, hname, heq⟩
    simp only [Option.ite_none_right_eq_some, Option.some.injEq, Prod.mk.injEq] at heq
    exact heq.2.1 ▸ mem_options_of_mem_names hname
  · rcases List.mem_filterMap.mp h with ⟨⟨name, spec'⟩, hname, heq⟩
    simp only [Option.ite_none_right_eq_some, Option.some.injEq, Prod.mk.injEq] at heq
    exact heq.2.1 ▸ mem_options_of_mem_names hname

/-- A word that is taken for an option stands for one of the grammar. -/
theorem mem_options_of_classify (h : g.classify word = .option spec joined) : spec ∈ g.options := by
  unfold classify at h
  simp only at h
  split at h
  · cases h
  split at h
  · cases h
  split at h
  · next hfind =>
    cases h
    exact mem_options_of_find? hfind
  split at h
  · cases h
  split at h
  · next hfind =>
    cases h
    exact mem_options_of_find? hfind
  split at h
  · next hcandidates =>
    cases h
    exact mem_options_of_candidates (by rw [hcandidates]; exact List.mem_singleton_self _)
  · cases h
  · split at h <;> cases h

/-- The options that a word gives are of the grammar. -/
structure Cluster.From (c : Cluster) (g : Grammar) : Prop where
  given : ∀ e ∈ c.given, e.1 ∈ g.options
  waiting : ∀ spec ∈ c.waiting, spec ∈ g.options

theorem Cluster.From.cons {c : Cluster} (h : c.From g) (hspec : spec ∈ g.options) (value : String) :
    From { c with given := (spec, value) :: c.given } g :=
  ⟨List.forall_mem_cons.mpr ⟨hspec, h.given⟩, h.waiting⟩

theorem from_unjoin {cs : List Char} {c : Cluster} (h : g.unjoin cs = some c) : c.From g := by
  induction cs generalizing c with
  | nil =>
    cases h
    exact ⟨nofun, nofun⟩
  | cons ch cs ih =>
    unfold unjoin at h
    split at h
    · split at h
      · cases h
        exact ⟨nofun, nofun⟩
      · cases h
    · next spec hfind =>
      have hspec := mem_options_of_find? hfind
      split at h
      · split at h
        · cases h
          exact ⟨nofun, by simpa using hspec⟩
        · cases h
          exact ⟨by simpa using hspec, nofun⟩
      · rcases Option.map_eq_some_iff.mp h with ⟨rest, hrest, rfl⟩
        exact (ih hrest).cons hspec ""

theorem from_cluster (hspec : spec ∈ g.options) {c : Cluster} (h : g.cluster spec joined = some c) :
    c.From g := by
  unfold cluster at h
  split at h
  · cases h
    exact ⟨nofun, by simpa using hspec⟩
  · cases h
    exact ⟨by simpa using hspec, nofun⟩
  · cases h
    exact ⟨by simpa using hspec, nofun⟩
  · cases h
    exact ⟨by simpa using hspec, nofun⟩
  · cases h
  · rcases Option.map_eq_some_iff.mp h with ⟨rest, hrest, rfl⟩
    exact (from_unjoin hrest).cons hspec ""

/-! ## Bindings -/

/-- What is bound is an argument, or an option with its value, which is a number where it has to be
one. -/
def Binds (g : Grammar) (b : Binding) : Prop :=
  b.name ∈ g.arguments ∨ ∃ spec ∈ g.options, b.name = spec.names.headD "" ∧
    ∃ word, b.value = g.optionValue word ∧ (spec.effect = .number → b.value.all isNumber = true)

theorem binds_act {given : List (OptionSpec × String)} (hgiven : ∀ e ∈ given, e.1 ∈ g.options)
    {r r' : Reading} (hr : ∀ b ∈ r.bindings, g.Binds b) (h : g.act r given = .ok r') :
    ∀ b ∈ r'.bindings, g.Binds b := by
  induction given generalizing r with
  | nil =>
    cases h
    exact hr
  | cons e given ih =>
    rcases e with ⟨spec, word⟩
    rcases List.forall_mem_cons.mp hgiven with ⟨hspec, hrest⟩
    -- the option is bound, and then the others are
    have hbound : (spec.effect = .number → (g.optionValue word).all isNumber = true) →
        ∀ b ∈ r.bindings ++ [⟨spec.names.headD "", g.optionValue word⟩], g.Binds b := by
      intro hnumber
      exact List.forall_mem_append.mpr ⟨hr, List.forall_mem_singleton.mpr
        (.inr ⟨spec, hspec, rfl, word, rfl, hnumber⟩)⟩
    unfold act at h
    cases heffect : spec.effect with
    | help | version =>
      simp only [heffect] at h
      cases h
    | number =>
      simp only [heffect] at h
      split at h
      · next hvalue => exact ih hrest (hbound fun _ => hvalue) h
      · cases h
    | flag | value =>
      simp only [heffect] at h
      exact ih hrest (hbound (by simp [heffect])) h

/-- What has been read so far is bound, and what is missing or waiting is of the grammar. -/
structure Progress.Sound (p : Progress) (g : Grammar) : Prop where
  bindings : ∀ b ∈ p.reading.bindings, g.Binds b
  missing : ∀ name ∈ p.missing, name ∈ g.arguments
  waiting : ∀ given spec, p.waiting = some (given, spec) →
    (∀ e ∈ given, e.1 ∈ g.options) ∧ spec ∈ g.options

theorem Progress.Sound.argument {p : Progress} (hp : p.Sound g) {name : String}
    {missing : List String} (hmissing : p.missing = name :: missing) (word : String) :
    Sound { p with
      reading := { p.reading with
        bindings := p.reading.bindings ++ [Grammar.argument p.before name word] }
      missing
      before := .argument } g := by
  have hnames := hp.missing
  rw [hmissing] at hnames
  rcases List.forall_mem_cons.mp hnames with ⟨hname, hothers⟩
  exact ⟨List.forall_mem_append.mpr ⟨hp.bindings, List.forall_mem_singleton.mpr (.inl hname)⟩,
    hothers, hp.waiting⟩

/-- Where options are done and reading goes on, it goes on soundly. -/
theorem sound_act {given : List (OptionSpec × String)} {reading : Reading}
    {next : Reading → Progress} {words : List (String × Word)} {r : Reading}
    (h : (g.act reading given >>= fun reading => g.readWords (next reading) words) = .ok r)
    (hgiven : ∀ e ∈ given, e.1 ∈ g.options) (hreading : ∀ b ∈ reading.bindings, g.Binds b)
    (hnext : ∀ reading, (∀ b ∈ reading.bindings, g.Binds b) → (next reading).Sound g) :
    ∃ p : Progress, p.Sound g ∧ g.readWords p words = .ok r := by
  cases hdone : g.act reading given with
  | error stop =>
    rw [hdone] at h
    cases h
  | ok reading' =>
    rw [hdone] at h
    exact ⟨next reading', hnext reading' (binds_act hgiven hreading hdone), h⟩

/-- With a word the command line comes to an end, or it goes on soundly. -/
theorem sound_word {p : Progress} (hp : p.Sound g) {kind : Word} {words : List (String × Word)}
    (hkind : ∀ spec joined, kind = .option spec joined → spec ∈ g.options)
    {r : Reading} (h : g.readWords p ((word, kind) :: words) = .ok r) :
    (∀ b ∈ r.bindings, g.Binds b) ∨ ∃ p' : Progress, p'.Sound g ∧ g.readWords p' words = .ok r := by
  have hsame : ∀ {p' : Progress}, g.readWords p' words = .ok r →
      p'.reading.bindings = p.reading.bindings → p'.missing = p.missing → p'.waiting = p.waiting →
      ∃ p' : Progress, p'.Sound g ∧ g.readWords p' words = .ok r := by
    intro p' h' hbindings hmissing hwaiting
    exact ⟨p', ⟨hbindings ▸ hp.bindings, hmissing ▸ hp.missing, hwaiting ▸ hp.waiting⟩, h'⟩
  unfold readWords at h
  simp only at h
  split at h
  · next given spec hwaiting =>
    -- the value of the option that waits
    rcases hp.waiting given spec hwaiting with ⟨hgiven, hspec⟩
    exact .inr (sound_act h
      (List.forall_mem_append.mpr ⟨hgiven, List.forall_mem_singleton.mpr hspec⟩) hp.bindings
      fun _ hr => ⟨hr, hp.missing, nofun⟩)
  · cases h
  · -- a plain word: a command, an argument, or one too many
    split at h
    · cases h
      exact .inl hp.bindings
    split at h
    · next name missing hmissing => exact .inr ⟨_, hp.argument hmissing word, h⟩
    · exact .inr (hsame h rfl rfl rfl)
  · -- the separator binds nothing
    split at h
    · cases h
    split at h
    · exact .inr (hsame h rfl rfl rfl)
    split at h
    · exact .inr (hsame h rfl rfl rfl)
    · exact .inr (hsame h rfl rfl rfl)
  · next spec joined hwaiting =>
    have hfrom : ∀ c, g.cluster spec joined = some c → c.From g := fun c =>
      from_cluster (hkind spec joined rfl)
    split at h
    · cases h
    · next given last _ hcluster =>
      rcases hfrom _ hcluster with ⟨hgiven, hlast⟩
      have hwaits : ∀ given' spec', some (given, last) = some (given', spec') →
          (∀ e ∈ given', e.1 ∈ g.options) ∧ spec' ∈ g.options := by
        rintro _ _ ⟨⟩
        exact ⟨hgiven, hlast last rfl⟩
      exact .inr ⟨{ p with waiting := some (given, last), before := .other },
        ⟨hp.bindings, hp.missing, hwaits⟩, h⟩
    · next given odd hcluster =>
      exact .inr (sound_act h (hfrom _ hcluster).given hp.bindings
        fun _ hr => ⟨hr, hp.missing, hp.waiting⟩)
  · exact .inr (hsame h rfl rfl rfl)
  · exact .inr (hsame h rfl rfl rfl)

theorem binds_readWords {p : Progress} (hp : p.Sound g) {words : List (String × Word)}
    (hwords : ∀ e ∈ words, ∀ spec joined, e.2 = .option spec joined → spec ∈ g.options)
    {r : Reading} (h : g.readWords p words = .ok r) : ∀ b ∈ r.bindings, g.Binds b := by
  induction words generalizing p with
  | nil =>
    have hfinish : finish p = .ok r := h
    unfold finish at hfinish
    split at hfinish
    · cases hfinish
    · cases hfinish
      exact hp.bindings
  | cons w words ih =>
    rcases List.forall_mem_cons.mp hwords with ⟨hword, hrest⟩
    rcases sound_word hp hword h with hbinds | ⟨p', hp', h'⟩
    · exact hbinds
    · exact ih hp' hrest h'

theorem mem_options_of_classifyAll {words : List String} {e : String × Word}
    (he : e ∈ g.classifyAll words) (h : e.2 = .option spec joined) : spec ∈ g.options := by
  induction words with
  | nil => cases he
  | cons word words ih =>
    unfold classifyAll at he
    split at he
    · -- after the separator all words are plain
      rcases List.mem_cons.mp he with rfl | he
      · cases h
      · rcases List.mem_map.mp he with ⟨_, _, rfl⟩
        cases h
    · rcases List.mem_cons.mp he with rfl | he
      · exact mem_options_of_classify h
      · exact ih he

/-- Whatever has been read is bound to an argument or to an option of the grammar. -/
theorem binds_read {words : List String} {r : Reading} (h : g.read words = .ok r) :
    ∀ b ∈ r.bindings, g.Binds b := by
  have hstart : Progress.Sound { missing := g.arguments } g :=
    ⟨nofun, fun _ hname => hname, nofun⟩
  unfold read at h
  simp only at h
  split at h
  · cases h
  · exact binds_readWords hstart (fun _ he _ _ heq => mem_options_of_classifyAll he heq) h

end Grammar

/-- What an option or an argument has is what it was given last. -/
theorem Reading.exists_value {r : Reading} {name : String} (h : r.has name) :
    ∃ b ∈ r.bindings, b.name = name ∧ r.value? name = b.value := by
  unfold Reading.value?
  cases hfind : r.bindings.reverse.find? (·.name = name) with
  | none =>
    rcases List.any_eq_true.mp h with ⟨b, hb, hname⟩
    exact absurd hname (List.find?_eq_none.mp hfind b (List.mem_reverse.mpr hb))
  | some b =>
    refine ⟨b, List.mem_reverse.mp (List.mem_of_find?_eq_some hfind), ?_, rfl⟩
    simpa using List.find?_some hfind

/-- In the late release an option that was given has a value, and a number if it takes one. -/
theorem exists_value_of_late {g : Grammar} (hlate : g.release = .late) {words : List String}
    {r : Reading} (h : g.read words = .ok r) {name : String} (hname : name ∉ g.arguments)
    (hgiven : r.has name) : ∃ spec ∈ g.options, name = spec.names.headD "" ∧
      ∃ word, r.value? name = some word ∧ (spec.effect = .number → Grammar.isNumber word) := by
  rcases Reading.exists_value hgiven with ⟨b, hb, rfl, hvalue⟩
  rcases Grammar.binds_read h b hb with harg | ⟨spec, hspec, heq, word, hword, hnumber⟩
  · exact absurd harg hname
  · have hkept : g.optionValue word = some word := by
      unfold Grammar.optionValue
      rw [hlate]
    rw [hkept] at hword
    refine ⟨spec, hspec, heq, word, hvalue.trans hword, fun heffect => ?_⟩
    have hall := hnumber heffect
    rw [hword] at hall
    exact hall

end CommandLine

/-! ## The commands of the toolkit -/

/-- The options that take a value have one. -/
def Command.HasOptionValues : Command → Prop
  | compile _ target => target ≠ none
  | run _ limit _ _ | ramGet _ _ _ limit => limit ≠ .missing
  | initRam _ | romDump _ | romGet .. => True

namespace CommandLine.Toolkit

variable {g : Grammar} {name : String} {words : List String} {r : Reading}

/-- A limit that was set in the late release is a number. -/
theorem stepLimit_ne_missing (hlate : g.release = .late) (h : g.read words = .ok r)
    (hname : "--max-steps" ∉ g.arguments)
    (hnumber : ∀ spec ∈ g.options, "--max-steps" = spec.names.headD "" → spec.effect = .number) :
    stepLimit r ≠ .missing := by
  unfold stepLimit
  split
  · next hgiven =>
    rcases exists_value_of_late hlate h hname hgiven with ⟨spec, hspec, heq, word, hword, hvalue⟩
    have hparsed := hvalue (hnumber spec hspec heq)
    unfold Grammar.isNumber at hparsed
    rw [Reading.number?, hword]
    cases hnumeral : Text.Decimal.parseFree? word.toList with
    | none => simp [hnumeral] at hparsed
    | some numeral => simp [hnumeral]
  · nofun

/-- In the late release the options of all commands have their values. -/
theorem hasOptionValues_of_late (hgrammar : commandGrammar? .late name = some g)
    (h : g.read words = .ok r) {c : Command} (hc : request name r = .command c) :
    c.HasOptionValues := by
  have hlimit := fun hlate => stepLimit_ne_missing hlate h
  unfold commandGrammar? at hgrammar
  split at hgrammar
  · cases hgrammar
    cases hc
    show (if r.has "--output" then r.value? "--output" else some Console.defaultImage) ≠ none
    split
    · next hgiven =>
      rcases exists_value_of_late rfl h (by decide) hgiven with ⟨_, _, _, word, hword, -⟩
      simp [hword]
    · nofun
  · cases hgrammar
    cases hc
    exact hlimit rfl (by decide) (by decide)
  · cases hgrammar
    cases hc
    trivial
  · cases hgrammar
    cases hc
    trivial
  · cases hgrammar
    cases hc
    trivial
  · cases hgrammar
    cases hc
    exact hlimit rfl (by decide) (by decide)
  · cases hgrammar
    cases hc
  · cases hgrammar

end CommandLine.Toolkit

end Subleq
