import Resumable.CommandLine.Help
import Resumable.Execution.Functions
import Resumable.Machine.Codec
import Resumable.Parser.Stmt
import Resumable.Render.Class

/-!
# Performing requests

* settings are loaded before the file is;
* a file whose name ends in `.json` holds a tree, any other file a source;
* a command fails if a procedure could not be lowered, except that running a procedure hangs on
  that procedure alone;
* what a body prints comes out before the value that it emits next.
-/

namespace Resumable

namespace CommandLine

/-- Why a file cannot be read or written. -/
structure AccessError where
  message : String

/-- What commands do to the outside. -/
structure Terminal (m : Type → Type) where
  /-- the text of a file -/
  read : String → m (Except AccessError String)
  /-- makes a file with a text -/
  write : String → String → m (Except AccessError Unit)
  /-- adds to the output -/
  out : String → m Unit
  /-- adds to the messages -/
  err : String → m Unit

/-- The text behind the last point of a file's name; a point in front does not count. -/
def extension? (path : String) : Option String :=
  let name := (path.toList.reverse.takeWhile (· != '/')).reverse
  let ending := (name.reverse.takeWhile (· != '.')).reverse
  match name.take (name.length - ending.length) with
  | [] | ['.'] => none
  | _ => if name == ['.', '.'] then none else some (String.ofList ending)

variable {m : Type → Type} [Monad m]

/-- Loads settings from a file, or the defaults. -/
def loadSettings (t : Terminal m) : Option String → ExceptT String m Settings
  | none => return {}
  | some path => do
    match ← t.read path with
    | .error e =>
      let cause := e.message
      throw s!"loading config {path}: cannot read config file {path}: {cause}: {cause}"
    | .ok text =>
      match Settings.ofText text with
      | .ok settings => return settings
      | .error e => throw s!"loading config {path}: {e.message}"

/-- Loads the procedures of a file. -/
def loadUnit (t : Terminal m) (path : String) : ExceptT String m ProgramUnit := do
  match ← t.read path with
  | .error e => throw s!"reading {path}: {e.message}"
  | .ok text =>
    if extension? path == some "json" then
      match (Json.ofText? text).bind (ProgramUnit.ofJson? Json.levelLimit) with
      | some u => return u
      | none => throw s!"decoding compilation unit {path}: malformed"
    else
      match ProgramUnit.ofSource text path with
      | .ok u => return u
      | .error e => throw s!"parsing {path}: {e.message}"

/-- The text of classes. -/
def classesText (format : OutputFormat) (classes : List GeneratorClass) : String :=
  match format with
  | .java => "\n".intercalate (classes.map GeneratorClass.render)
  | .json => (Json.arr (classes.map GeneratorClass.toJson)).pretty

/-- Writes the classes of a file. -/
def performLower (t : Terminal m) (file : String) (format : OutputFormat)
    (config output : Option String) : ExceptT String m UInt32 := do
  let settings ← loadSettings t config
  let u ← loadUnit t file
  let lowered := u.lower settings
  let text := classesText format lowered.classes
  match output with
  | none => t.out (text ++ "\n")
  | some path =>
    if let .error e ← t.write path text then throw s!"writing {path}: {e.message}"
  if lowered.diagnostics.isEmpty then return 0
  t.err s!"{lowered.diagnostics.length} procedure(s) could not be lowered\n"
  return 1

/-- Says what is wrong with the procedures of a file. -/
def performCheck (t : Terminal m) (file : String) (config : Option String) :
    ExceptT String m UInt32 := do
  let settings ← loadSettings t config
  let u ← loadUnit t file
  let lowered := u.lower settings
  lowered.diagnostics.forM fun d => t.out (d.message ++ "\n")
  t.out s!"{lowered.classes.length} lowered, {lowered.diagnostics.length} failed\n"
  return if lowered.diagnostics.isEmpty then 0 else 1

/-- The text of a halt. -/
def haltMessage : Halt → String
  | .fault f => f.message
  | .outOfFuel => "out of fuel"

/-- Puts out what was printed. -/
def flushPrinted (t : Terminal m) (w : World) : m World := do
  w.printed.forM fun line => t.out (line ++ "\n")
  return { w with printed := #[] }

/-- Prints the values of a generator, `limit` of them at most. -/
@[specialize] def playback (t : Terminal m) (h : Host) :
    Nat → Instance → World → ExceptT String m Unit
  | 0, _, _ => return ()
  | limit + 1, g, w =>
    match g.next? h ampleFuel w with
    | .ok (r, g) w => do
      let w ← (flushPrinted t w : m World)
      match r with
      | .ok (some v) => do
        t.out (v.text ++ "\n")
        playback t h limit g w
      | .ok none => return ()
      | .error f => throw f.message
    | .error e w => do
      let _ ← (flushPrinted t w : m World)
      throw (haltMessage e)

/-- Runs a procedure of a file. -/
def performRun (t : Terminal m) (file procedure : String) (args : List String)
    (limit : Option Nat) (config : Option String) : ExceptT String m UInt32 := do
  let settings ← loadSettings t config
  let u ← loadUnit t file
  let classes := (u.lower settings).classes
  let functions := classes.foldl Functions.register .builtins
  match classes.reverse.find? fun c => c.procedure == procedure with
  | none =>
    if (u.procedure? procedure).isSome then throw s!"procedure `{procedure}` could not be lowered"
    else throw s!"no procedure named `{procedure}` in {file}"
  | some cls =>
    match Instance.new cls (args.map Value.ofWord) with
    | .error f => throw s!"instantiating `{procedure}`: {f.message}"
    | .ok g => do
      playback t (functions.host ampleFuel) (limit.getD ampleFuel) g .empty
      return 0

/-- Performs a command. -/
def Command.perform (t : Terminal m) : Command → ExceptT String m UInt32
  | .lower file format config output => performLower t file format config output
  | .check file config => performCheck t file config
  | .run file procedure args limit config => performRun t file procedure args limit config

/-- Does what a command line asks for, and gives the exit code: 0 for success, 1 for failure, 2
where the command line makes no sense. -/
def execute (t : Terminal m) (words : List String) : m UInt32 := do
  match Request.ofWords words with
  | none => do
    t.err s!"error: bad usage; try {programName} --help\n"
    return 2
  | some .version => do
    t.out (versionLine ++ "\n")
    return 0
  | some (.help topic) => do
    t.out topic.page.text
    return 0
  | some (.perform c) => do
    match ← (c.perform t).run with
    | .ok code => return code
    | .error e => do
      t.err s!"error: {e}\n"
      return 1

end CommandLine

end Resumable
