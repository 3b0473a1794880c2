import Resumable.Execution.Generator

/-!
# Functions

* every procedure is a function that makes a generator; the other functions are built in;
* a later function replaces an earlier one of its name;
* an iterator that runs a generator cannot be asked for a value by that generator.
-/

namespace Resumable

/-- The functions that are there from the start. -/
inductive Builtin where
  /-- a list of the arguments -/
  | list
  /-- an iterator over integers -/
  | range
  /-- an exception -/
  | error
  /-- a resource -/
  | resource
  /-- a resource that fails to close -/
  | failingResource
  /-- puts a line in the journal -/
  | trace
  /-- prints a line -/
  | print
  deriving DecidableEq, Inhabited

namespace Builtin

/-- All built-in functions. -/
def all : List Builtin := [list, range, error, resource, failingResource, trace, print]

/-- The name of a function. -/
def name : Builtin → String
  | list => "list"
  | range => "range"
  | error => "error"
  | resource => "resource"
  | failingResource => "failingResource"
  | trace => "trace"
  | print => "print"

/-- The arguments as a line. -/
def line (args : List Value) : String := " ".intercalate (args.map Value.text)

/-- A resource named by the argument. -/
def opened (args : List Value) (failsOnClose : Bool) : Effect Value :=
  withArg "resource" args fun v => World.openResource v.text failsOnClose

/-- Calls a built-in function. -/
def call (f : Builtin) (args : List Value) : Effect Value :=
  match f with
  | list => pure (.list args)
  | range =>
    match args with
    | [a, b] => do
      let next ← a.asInt
      let stop ← b.asInt
      World.newIterator (.range next stop)
    | _ => World.fail (.arity "range" 2 args.length)
  | error =>
    match args with
    | [message] => World.newException "RuntimeException" message.text
    | [className, message] => World.newException className.text message.text
    | _ => World.fail (.arity "error" 1 args.length)
  | resource => opened args false
  | failingResource => opened args true
  | trace => do
    World.record ("trace " ++ line args)
    return .null
  | print => do
    World.print (line args)
    return .null

end Builtin

/-- What a call does. -/
inductive Callable where
  /-- what a built-in function does -/
  | builtin (f : Builtin)
  /-- makes a generator -/
  | generator (cls : GeneratorClass)

/-- Functions by name, one for each name. -/
structure Functions where
  entries : List (String × Callable)

namespace Functions

/-- No functions. -/
def empty : Functions := ⟨[]⟩

/-- The function of a name. -/
def get? (fs : Functions) (name : String) : Option Callable := fs.entries.lookup name

/-- Whether there is a function of a name. -/
def contains (fs : Functions) (name : String) : Bool := (fs.get? name).isSome

/-- Adds a function, in place of any other of its name. -/
def insert (fs : Functions) (name : String) (f : Callable) : Functions :=
  ⟨(name, f) :: fs.entries.filter fun (other, _) => other != name⟩

/-- The built-in functions. -/
def builtins : Functions :=
  Builtin.all.foldl (fun fs f => fs.insert f.name (.builtin f)) empty

/-- Adds a function for the procedure of a class. -/
def register (fs : Functions) (cls : GeneratorClass) : Functions :=
  fs.insert cls.procedure (.generator cls)

/-- The names of all functions, in order. -/
def names (fs : Functions) : List String :=
  (fs.entries.map Prod.fst).mergeSort fun a b => a ≤ b

/-- Calls a function. -/
def call (fs : Functions) (name : String) (args : List Value) : Effect Value :=
  match fs.get? name with
  | none => World.fail (.unknownFunction name)
  | some (.builtin f) => f.call args
  | some (.generator cls) => do
    let g ← Instance.new cls args
    World.newIterator (.generator g)

end Functions

/-! ## Iterators -/

/-- Fails because an iterator has no more values. -/
def exhausted : Effect Value := World.raise "NoSuchElementException" "iterator is exhausted"

namespace World

/-- Replaces the source of an iterator. -/
def setSource (id : Nat) (source : Source) : Effect Unit :=
  modify fun w => { w with iterators := w.iterators.setIfInBounds id source }

/-- Runs the generator behind an iterator, which is busy meanwhile. -/
def running {α : Type} (id : Nat) (g : Instance) (pull : Instance → Effect (Instance.Pulled α)) :
    Effect α := do
  setSource id .busy
  let (r, g) ← pull g
  setSource id (.generator g)
  ofResult r

/-- Whether an iterator has more values, given how to ask a generator. -/
def hasNext (ask : Instance → Effect (Instance.Pulled Bool)) (id : Nat) : Effect Bool := do
  match (← get).iterators[id]? with
  | some (.list rest) => return !rest.isEmpty
  | some (.range next stop) => return next < stop
  | some (.generator g) => running id g ask
  | some .busy | none => fail (.breach .reentered)

/-- The next value of an iterator, given how to take one from a generator. -/
def next (take : Instance → Effect (Instance.Pulled Value)) (id : Nat) : Effect Value := do
  match (← get).iterators[id]? with
  | some (.list (v :: rest)) => do
    setSource id (.list rest)
    return v
  | some (.list []) => exhausted
  | some (.range next stop) =>
    if next < stop then do
      setSource id (.range (next + 1) stop)
      return .int next
    else exhausted
  | some (.generator g) => running id g take
  | some .busy | none => fail (.breach .reentered)

end World

/-- Fuel for runs that are meant to end by themselves. -/
def ampleFuel : Nat := Nat.pow 10 15

/-- The host with those functions. Its fuel bounds how deep generators run inside each other and
how many rounds each loop takes. -/
def Functions.host (fs : Functions) : Nat → Host
  | 0 => {
      call := fs.call
      hasNext := fun _ => throw .outOfFuel
      next := fun _ => throw .outOfFuel }
  | fuel + 1 => {
      call := fs.call
      hasNext := fun id => World.hasNext (fun g => g.hasNext (fs.host fuel) fuel) id
      next := fun id => World.next (fun g => g.next (fs.host fuel) fuel) id }

end Resumable
