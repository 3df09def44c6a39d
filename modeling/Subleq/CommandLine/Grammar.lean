import Subleq.Text.Numeral

/-!
# Subleq.CommandLine.Grammar — options and arguments

A command line is a list of words. Options begin with a dash and may stand anywhere among the plain
words; short options can be joined, long ones can be shortened as long as they stay unambiguous,
and a value can be joined to its option. The word `--` makes all words after it plain. What an
option does is done when it is met, so that asking for help wins over a mistake further on.

Words are read by the rules of one of two releases. In both, the separator is dropped where it is the
word of an argument, which is then given but has no value. They differ where a word goes on after a
short option, and where the separator is the value of an option.
-/

namespace Subleq.CommandLine

/-- The releases of the rules by which command lines are read. -/
inductive Release where
  /-- The separator is dropped also where it is the value of an option. An equals sign after a short
  option is passed over. -/
  | early
  /-- An option keeps its value. An equals sign after a short option can only be followed by its
  value. -/
  | late
deriving Repr, DecidableEq

/-- What an option does. -/
inductive Effect where
  /-- It is noted, as often as it is given. -/
  | flag
  /-- It takes a value. -/
  | value
  /-- It takes a value that has to be a whole number. -/
  | number
  /-- It shows the usage and ends the program. -/
  | help
  /-- It shows the version and ends the program. -/
  | version
deriving Repr, DecidableEq

/-- An option: its names, with their dashes, and what it does. The first name identifies it. -/
structure OptionSpec where
  names : List String
  effect : Effect
deriving Repr, DecidableEq

/-- What a command line may consist of. -/
structure Grammar where
  options : List OptionSpec
  /-- The names of the plain words, in order. -/
  arguments : List String
  /-- The first plain word is a command, which all further words are handed on to. -/
  takesCommand : Bool := false
  /-- The rules by which it is read. -/
  release : Release

/-- Why reading a command line ends the program. -/
inductive Stop where
  | mistake
  | help
  | version
deriving Repr, DecidableEq

/-- An option that was given, or an argument, with its value if it has one. -/
structure Binding where
  name : String
  value : Option String := none
deriving Repr, DecidableEq

/-- What a command line says: the options and arguments in order, whether there were words that
have no place, and the command with its words. -/
structure Reading where
  bindings : List Binding := []
  surplus : Bool := false
  command : List String := []
deriving Repr, DecidableEq

namespace Reading

/-- How often an option was given. -/
def count (r : Reading) (name : String) : Nat := (r.bindings.filter (·.name = name)).length

/-- The option was given. -/
def has (r : Reading) (name : String) : Bool := r.bindings.any (·.name = name)

/-- The value that an option or an argument has where it was given last. -/
def value? (r : Reading) (name : String) : Option String :=
  (r.bindings.reverse.find? (·.name = name)).bind (·.value)

/-- The whole number that an option has where it was given last. -/
def number? (r : Reading) (name : String) : Option Int :=
  (r.value? name).bind fun s => (Text.Decimal.parseFree? s.toList).map (·.number)

end Reading

/-! ## The kinds of words -/

/-- The text that is joined to an option in one word. -/
inductive Joined where
  | nothing
  | afterEquals (text : List Char)
  | directly (text : List Char)
deriving Repr, DecidableEq

/-- What a word is. -/
inductive Word where
  | plain
  | separator
  | option (spec : OptionSpec) (joined : Joined)
  | unknown
  | ambiguous
deriving Repr, DecidableEq

/-- A minus and digits, or a minus and digits with a decimal point before the last of them. -/
def isNegativeNumber (cs : List Char) : Bool :=
  match Text.dropFinalNewline cs with
  | '-' :: cs =>
    match cs.dropWhile Text.isDigit with
    | [] => !cs.isEmpty
    | '.' :: rest => !rest.isEmpty && rest.all Text.isDigit
    | _ => false
  | _ => false

namespace Grammar

/-- The names of the options, each with its option. -/
def names (g : Grammar) : List (List Char × OptionSpec) :=
  g.options.flatMap fun spec => spec.names.map (·.toList, spec)

/-- The option of that very name. -/
def find? (g : Grammar) (name : List Char) : Option OptionSpec := g.names.lookup name

/-- The part of a word before its first equals sign, and what is joined by the sign. -/
def cutEquals (cs : List Char) : List Char × Joined :=
  (cs.takeWhile (· != '='),
    match cs.dropWhile (· != '=') with
    | [] => .nothing
    | _ :: text => .afterEquals text)

/-- What is joined to the full name of an option. In the early release an equals sign after a short
option is passed over unless nothing follows it. -/
def joinedTo (g : Grammar) : List Char → Joined → Joined
  | '-' :: '-' :: _, joined => joined
  | _, .afterEquals (c :: cs) =>
    match g.release with
    | .early => .directly (c :: cs)
    | .late => .afterEquals (c :: cs)
  | _, joined => joined

/-- The options that a word can stand for when it is no option's full name: a shortened long
option, or a short option with text joined to it. -/
def candidates (g : Grammar) (cs : List Char) : List (OptionSpec × Joined) :=
  match cs with
  | '-' :: '-' :: _ =>
    let (start, joined) := cutEquals cs
    g.names.filterMap fun (name, spec) =>
      if start.isPrefixOf name then some (spec, joined) else none
  | _ =>
    g.names.filterMap fun (name, spec) =>
      if name = cs.take 2 then some (spec, .directly (cs.drop 2)) else none

/-- What a word is, that does not stand after the separator. -/
def classify (g : Grammar) (word : String) : Word :=
  let cs := word.toList
  if cs = ['-', '-'] then .separator
  else if cs.head? ≠ some '-' then .plain
  else
    match g.find? cs with
    | some spec => .option spec .nothing
    | none =>
      if cs.length = 1 then .plain
      else
        let (start, joined) := cutEquals cs
        match g.find? start with
        | some spec => .option spec (g.joinedTo start joined)
        | none =>
          match g.candidates cs with
          | [(spec, joined)] => .option spec joined
          | _ :: _ :: _ => .ambiguous
          | [] => if isNegativeNumber cs ∨ ' ' ∈ cs then .plain else .unknown

/-- The words of a command line with their kinds. -/
def classifyAll (g : Grammar) : List String → List (String × Word)
  | [] => []
  | word :: words =>
    match g.classify word with
    | .separator => (word, .separator) :: words.map (·, .plain)
    | kind => (word, kind) :: classifyAll g words

/-! ## Options -/

/-- The options that one word gives: those that are complete, with their values, and one that still
waits for its value. -/
structure Cluster where
  given : List (OptionSpec × String) := []
  waiting : Option OptionSpec := none
  /-- The word goes on with what has no place. -/
  surplus : Bool := false

/-- The option takes a value. -/
def takesValue (spec : OptionSpec) : Bool := spec.effect = .value ∨ spec.effect = .number

/-- The value that stands after a short option among others. In the late release an equals sign
before it is no part of it. -/
def valueAfter (g : Grammar) : List Char → List Char
  | '=' :: cs =>
    match g.release with
    | .early => '=' :: cs
    | .late => cs
  | cs => cs

/-- The options in text that is joined directly to a short option that takes no value: further
short options, up to one that takes what is left, or the next word, as its value. A letter that is
no option is a mistake, but in the late release it only has no place unless it is a dash or an equals
sign. -/
def unjoin (g : Grammar) : List Char → Option Cluster
  | [] => some {}
  | c :: cs =>
    match g.find? ['-', c] with
    | none => if g.release = .late ∧ c ≠ '-' ∧ c ≠ '=' then some { surplus := true } else none
    | some spec =>
      if takesValue spec then
        if cs = [] then some { waiting := some spec }
        else some { given := [(spec, String.ofList (g.valueAfter cs))] }
      else (g.unjoin cs).map fun rest => { rest with given := (spec, "") :: rest.given }

/-- The options that a word gives; nothing where the word is a mistake. -/
def cluster (g : Grammar) (spec : OptionSpec) (joined : Joined) : Option Cluster :=
  match joined, takesValue spec with
  | .nothing, true => some { waiting := some spec }
  | .nothing, false => some { given := [(spec, "")] }
  | .afterEquals text, true | .directly text, true =>
    some { given := [(spec, String.ofList text)] }
  | .afterEquals _, false => none
  | .directly text, false =>
    (g.unjoin text).map fun rest => { rest with given := (spec, "") :: rest.given }

/-- The text is a whole number that can be converted. -/
def isNumber (text : String) : Bool :=
  match Text.Decimal.parseFree? text.toList with
  | some numeral => (numeral.value matches .ok _)
  | none => false

/-- A word as a value, where the separator is dropped. -/
def kept (word : String) : Option String := if word = "--" then none else some word

/-- A word as the value of an option. -/
def optionValue (g : Grammar) (word : String) : Option String :=
  match g.release with
  | .early => kept word
  | .late => some word

/-- Does what options do, in order. -/
def act (g : Grammar) (r : Reading) : List (OptionSpec × String) → Except Stop Reading
  | [] => .ok r
  | (spec, word) :: rest =>
    let value := g.optionValue word
    let bound := { r with bindings := r.bindings ++ [⟨spec.names.headD "", value⟩] }
    match spec.effect with
    | .help => .error .help
    | .version => .error .version
    | .number => if value.all isNumber then g.act bound rest else .error .mistake
    | .flag | .value => g.act bound rest

/-! ## Command lines -/

/-- What the word before was, as far as it matters to the separator and to arguments. -/
inductive Before where
  | argument
  /-- The separator, which belongs to the argument after it. -/
  | separator
  | other
deriving Repr, DecidableEq

/-- Where reading a command line has come to: what has been read, the arguments that are missing,
options of which the last waits for a value, and what the word before was. -/
structure Progress where
  reading : Reading := {}
  missing : List String
  waiting : Option (List (OptionSpec × String) × OptionSpec) := none
  before : Before := .other

/-- The end of the command line. -/
def finish (p : Progress) : Except Stop Reading :=
  if p.waiting.isSome ∨ p.missing ≠ [] then .error .mistake else .ok p.reading

/-- An argument with its word. Of the separators that belong to an argument only the first one is
dropped, so that after one that is not part of the word, the word is kept. -/
def argument (before : Before) (name word : String) : Binding :=
  ⟨name, if before = .separator then some word else kept word⟩

/-- Reads the words that are left. -/
def readWords (g : Grammar) (p : Progress) : List (String × Word) → Except Stop Reading
  | [] => finish p
  | (word, kind) :: rest =>
    let surplus := { p.reading with surplus := true }
    match p.waiting, kind with
    | some (given, spec), .plain => do
      let reading ← g.act p.reading (given ++ [(spec, word)])
      g.readWords { p with reading, waiting := none, before := .other } rest
    | some _, _ => .error .mistake
    | none, .plain =>
      if g.takesCommand then .ok { p.reading with command := word :: rest.map (·.1) }
      else
        match p.missing with
        | name :: missing =>
          let bindings := p.reading.bindings ++ [argument p.before name word]
          g.readWords { p with reading := { p.reading with bindings }, missing, before := .argument }
            rest
        | [] => g.readWords { p with reading := surplus, before := .other } rest
    | none, .separator =>
      if g.takesCommand then .error .mistake
      -- The separator belongs to the argument before it, or else to the one after it.
      else if p.before = .argument then g.readWords { p with before := .other } rest
      else if p.missing ≠ [] ∧ rest ≠ [] then g.readWords { p with before := .separator } rest
      else g.readWords { p with reading := surplus, before := .other } rest
    | none, .option spec joined =>
      match g.cluster spec joined with
      | none => .error .mistake
      | some ⟨given, some last, _⟩ =>
        g.readWords { p with waiting := some (given, last), before := .other } rest
      | some ⟨given, none, odd⟩ => do
        let reading ← g.act { p.reading with surplus := p.reading.surplus || odd } given
        g.readWords { p with reading, before := .other } rest
    | none, .unknown | none, .ambiguous =>
      g.readWords { p with reading := surplus, before := .other } rest

/-- Reads a command line. An ambiguous word is a mistake whatever stands before it. -/
def read (g : Grammar) (words : List String) : Except Stop Reading :=
  let classified := g.classifyAll words
  if classified.any (·.2 matches .ambiguous) then .error .mistake
  else g.readWords { missing := g.arguments } classified

end Grammar

end Subleq.CommandLine
