import Resumable.Text.Decimal

/-!
# Requests on the command line

* the first word is a command, or asks for help or for the version;
* behind a command, options and the file may stand in any order; an option is given once, apart
  from the arguments of a procedure, of which there may be many;
* the value of an option stands in the same word (`--config=x`, `-px`, `-p=x`) or is the next word,
  which must not look like an option;
* behind `--` no word is an option;
* words are read from left to right, and the first request for help or mistake decides.
-/

namespace Resumable

namespace CommandLine

/-- How classes are written. -/
inductive OutputFormat where
  | java
  | json
  deriving DecidableEq, Inhabited

/-- The format of a name. -/
def OutputFormat.ofName? : String → Option OutputFormat
  | "java" => some .java
  | "json" => some .json
  | _ => none

/-- What the program does. -/
inductive Command where
  /-- lowers all procedures of a file and writes the classes -/
  | lower (file : String) (format : OutputFormat) (config output : Option String)
  /-- lowers all procedures of a file and says what is wrong with them -/
  | check (file : String) (config : Option String)
  /-- runs a procedure of a file and prints what it emits -/
  | run (file procedure : String) (args : List String) (limit : Option Nat)
      (config : Option String)
  deriving Inhabited

/-- What there is help on. -/
inductive Topic where
  | program
  | lower
  | check
  | run
  | help
  deriving DecidableEq, Inhabited

/-- What a command line asks for. -/
inductive Request where
  /-- to do something -/
  | perform (c : Command)
  /-- to print help -/
  | help (topic : Topic)
  /-- to print the version -/
  | version
  deriving Inhabited

/-! ## Options -/

/-- The options that take a value. -/
inductive Opt where
  | format
  | config
  | output
  | procedure
  | arg
  | limit
  deriving DecidableEq, Inhabited

namespace Opt

/-- The name behind two hyphens. -/
def long : Opt → String
  | format => "format"
  | config => "config"
  | output => "output"
  | procedure => "procedure"
  | arg => "arg"
  | limit => "limit"

/-- The letter behind one hyphen. -/
def short? : Opt → Option Char
  | output => some 'o'
  | procedure => some 'p'
  | arg => some 'a'
  | _ => none

/-- Whether the option may be given more than once. -/
def repeats : Opt → Bool
  | arg => true
  | _ => false

/-- Whether a value can be a value of the option. -/
def accepts (o : Opt) (value : String) : Bool :=
  match o with
  | format => (OutputFormat.ofName? value).isSome
  | config | output => !value.isEmpty
  | procedure | arg => true
  | limit => (Text.word64? value).isSome

/-- The options of a command. -/
def ofTopic : Topic → List Opt
  | .lower => [format, config, output]
  | .check => [config]
  | .run => [procedure, arg, limit, config]
  | _ => []

end Opt

/-! ## Words -/

/-- What was given behind a command. -/
structure Given where
  /-- the file -/
  file : Option String
  /-- the values of options, in order -/
  values : List (Opt × String)

namespace Given

/-- Nothing. -/
def empty : Given := ⟨none, []⟩

/-- The values of an option. -/
def all (g : Given) (o : Opt) : List String :=
  g.values.filterMap fun (p, v) => if p = o then some v else none

/-- The value of an option that is given once. -/
def get? (g : Given) (o : Opt) : Option String := (g.all o).head?

/-- Adds the value of an option. -/
def addValue (g : Given) (o : Opt) (value : String) : Option Given :=
  if o.accepts value && (o.repeats || (g.all o).isEmpty) then
    some { g with values := g.values ++ [(o, value)] }
  else none

/-- Adds the file. -/
def addFile (g : Given) (file : String) : Option Given :=
  if file.isEmpty || g.file.isSome then none else some { g with file := some file }

end Given

/-- What a word is. -/
inductive Word where
  /-- neither an option nor `--` -/
  | plain (text : String)
  /-- `--` -/
  | endOfOptions
  /-- a request for help -/
  | help
  /-- an option, with its value if that is part of the word -/
  | option (o : Opt) (value : Option String)
  /-- no option of the command -/
  | unknown

namespace Word

/-- A name and what stands behind the first `=`. -/
def splitValue (cs : List Char) : String × Option String :=
  (String.ofList (cs.takeWhile (· != '=')),
    match cs.dropWhile (· != '=') with
    | [] => none
    | _ :: value => some (String.ofList value))

/-- The value behind a letter. -/
def attached : List Char → Option String
  | [] => none
  | '=' :: value => some (String.ofList value)
  | value => some (String.ofList value)

/-- Tells what a word is, among the options of a command. -/
def ofString (opts : List Opt) (word : String) : Word :=
  match word.toList with
  | ['-', '-'] => endOfOptions
  | '-' :: '-' :: rest =>
    let (name, value) := splitValue rest
    match opts.find? (fun o => o.long == name), value with
    | some o, value => option o value
    | none, none => if name == "help" then help else unknown
    | none, some _ => unknown
  | '-' :: c :: rest =>
    match opts.find? fun o => o.short? == some c with
    | some o => option o (attached rest)
    | none => if c == 'h' then help else unknown
  | _ => plain word

end Word

/-- The words behind `--`. -/
def readFiles (g : Given) : List String → Option Given
  | [] => some g
  | word :: words => do readFiles (← g.addFile word) words

/-- Reads the words behind a command. Gives nothing where help is asked for, and fails on a
mistake. -/
def readWords (opts : List Opt) : Given → List String → Option (Option Given)
  | g, [] => some (some g)
  | g, word :: words =>
    match Word.ofString opts word with
    | .plain file => do readWords opts (← g.addFile file) words
    | .endOfOptions => (readFiles g words).map some
    | .help => some none
    | .option o (some value) => do readWords opts (← g.addValue o value) words
    | .option o none =>
      match words with
      | [] => none
      | next :: words =>
        match Word.ofString opts next with
        | .plain value => do readWords opts (← g.addValue o value) words
        | _ => none
    | .unknown => none

/-! ## Requests -/

/-- The command that was given. -/
def Command.ofGiven (topic : Topic) (g : Given) : Option Command := do
  let file ← g.file
  match topic with
  | .lower =>
    return .lower file (((g.get? .format).bind OutputFormat.ofName?).getD .java)
      (g.get? .config) (g.get? .output)
  | .check => return .check file (g.get? .config)
  | .run =>
    return .run file (← g.get? .procedure) (g.all .arg) ((g.get? .limit).bind Text.word64?)
      (g.get? .config)
  | _ => none

/-- The topic of a command's name. -/
def Topic.ofName? : String → Option Topic
  | "lower" => some .lower
  | "check" => some .check
  | "run" => some .run
  | "help" => some .help
  | _ => none

/-- What the words behind `help` ask for. -/
def Request.ofHelpWords : List String → Option Request
  | [] => some (.help .program)
  | [name] => (Topic.ofName? name).map .help
  | _ => none

/-- What the words behind a command ask for. -/
def Request.ofCommandWords (topic : Topic) (words : List String) : Option Request := do
  match ← readWords (Opt.ofTopic topic) .empty words with
  | none => return .help topic
  | some g => return .perform (← Command.ofGiven topic g)

/-- What a flag in front of any command asks for. -/
def Request.ofFlag (word : String) : Option Request :=
  match word.toList with
  | '-' :: 'V' :: _ => some .version
  | '-' :: 'h' :: _ => some (.help .program)
  | _ =>
    match word with
    | "--version" => some .version
    | "--help" => some (.help .program)
    | _ => none

/-- What a command line asks for; nothing where it makes no sense. -/
def Request.ofWords : List String → Option Request
  | [] => none
  | word :: words =>
    match Topic.ofName? word with
    | some .help => ofHelpWords words
    | some topic => ofCommandWords topic words
    | none => ofFlag word

end CommandLine

end Resumable
