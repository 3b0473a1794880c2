import Resumable.Execution.Value
import Resumable.Location
import Resumable.Text.Inspect

/-!
# Faults

How running a body can go wrong.

* an exception that is raised, and asking an iterator for more than it has, can be handled; no
  handler sees any other fault;
* running out of fuel is no fault: it says nothing about the body.
-/

namespace Resumable

/-- A jump out of a statement. -/
inductive Jump where
  /-- leaves a statement -/
  | brk (label : Option String)
  /-- goes on with the next round of a loop -/
  | cont (label : Option String)
  deriving DecidableEq, Inhabited

namespace Jump

/-- The text of a label. -/
def labelText : Option String → String
  | none => "None"
  | some l => "Some(" ++ Text.inspect l ++ ")"

/-- The text of a jump. -/
def text : Jump → String
  | brk l => "Break(" ++ labelText l ++ ")"
  | cont l => "Continue(" ++ labelText l ++ ")"

end Jump

/-- A value of a kind that does not fit. -/
inductive Mismatch where
  /-- an integer is needed -/
  | notInt (found : ValueKind)
  /-- a truth value is needed -/
  | notBool (found : ValueKind)
  /-- an exception is needed -/
  | notThrowable (found : ValueKind)
  deriving DecidableEq, Inhabited

/-- What is wrong with a value. -/
def Mismatch.message : Mismatch → String
  | notInt found => "expected int, found " ++ found.name
  | notBool found => "expected boolean, found " ++ found.name
  | notThrowable found => "cannot throw a value of type " ++ found.name

/-- What can be wrong with a class that is run. -/
inductive Breach where
  /-- a parameter is tied to no variable -/
  | unresolvedParameter (name : String)
  /-- a field has no value -/
  | missingField (field : SymbolId)
  /-- a tag stands for no state -/
  | unresolvedTag (tag : Nat)
  /-- a jump leaves a plain statement -/
  | escaped (location : Location) (jump : Jump)
  /-- a plain statement returns -/
  | plainReturn (location : Location)
  /-- an iterator asks itself for a value -/
  | reentered
  /-- the value that was kept for the consumer is gone -/
  | bufferEmptied
  deriving DecidableEq, Inhabited

/-- What is wrong with a class. -/
def Breach.message : Breach → String
  | unresolvedParameter name => s!"parameter `{name}` is unresolved"
  | missingField field => s!"field #{field.index} is missing"
  | unresolvedTag tag => s!"tag #{tag} is unresolved"
  | escaped location jump => location.text ++ ": " ++ jump.text ++ " escaped a plain statement"
  | plainReturn location => location.text ++ ": return was not lowered"
  | reentered => "iterator re-entered while it is advancing"
  | bufferEmptied => "buffer emptied during advance"

/-- Why running a body stopped. -/
inductive Fault where
  /-- an exception was raised -/
  | thrown (failure : Value)
  /-- a finished generator was asked for a value -/
  | noSuchElement
  /-- a selector held no state -/
  | unreachable (selector : Int)
  /-- a value of the wrong kind -/
  | mismatch (cause : Mismatch)
  /-- a variable without a value -/
  | unboundVariable (name : String)
  /-- a function that does not exist -/
  | unknownFunction (name : String)
  /-- a method that values of the kind do not have -/
  | unknownMethod (receiver : ValueKind) (method : String)
  /-- a wrong number of arguments -/
  | arity (name : String) (expected found : Nat)
  /-- the class is not well formed -/
  | breach (cause : Breach)
  deriving Inhabited

namespace Fault

/-- Whether a handler may see the fault. -/
def isCatchable : Fault → Bool
  | thrown _ => true
  | noSuchElement => true
  | _ => false

/-- The text of a fault. -/
def message : Fault → String
  | thrown failure => "uncaught " ++ failure.text
  | noSuchElement => "Called next on finished generator"
  | unreachable selector => s!"Unreachable generator step (selector {selector})"
  | mismatch cause => "type error: " ++ cause.message
  | unboundVariable name => s!"unbound variable `{name}`"
  | unknownFunction name => s!"unknown function `{name}`"
  | unknownMethod receiver method => s!"no method `{method}` on " ++ receiver.name
  | arity name expected found => s!"`{name}` expects {expected} argument(s), found {found}"
  | breach cause => "internal runtime error: " ++ cause.message

end Fault

namespace Value

/-- The integer that a value is. -/
def asInt : Value → Except Fault Int64
  | int n => .ok n
  | v => .error (.mismatch (.notInt v.kind))

/-- The truth value that a value is. -/
def asBool : Value → Except Fault Bool
  | bool b => .ok b
  | v => .error (.mismatch (.notBool v.kind))

end Value

/-- Why a computation gave no value. -/
inductive Halt where
  /-- it went wrong -/
  | fault (f : Fault)
  /-- it was not given enough fuel -/
  | outOfFuel
  deriving Inhabited

/-- A result that may be a fault, as a computation. -/
def ofResult {σ α : Type} : Except Fault α → EStateM Halt σ α
  | .ok a => pure a
  | .error f => throw (.fault f)

instance {σ : Type} : MonadLift (Except Fault) (EStateM Halt σ) := ⟨ofResult⟩

end Resumable
