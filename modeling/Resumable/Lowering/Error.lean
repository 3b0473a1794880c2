import Resumable.Machine.Basic

/-!
# Errors of lowering

* an error is either about the procedure, and then it has a place, or a defect of lowering itself;
* lowering a procedure stops at its first error.
-/

namespace Resumable

/-- A state of affairs that lowering itself should have ruled out. -/
inductive Defect where
  /-- a declaration of that name denotes no variable -/
  | unresolvedDeclaration (name : String)
  /-- there is no such tag -/
  | missingTag (tag : Tag)
  /-- a tag was given two states -/
  | tagResolvedTwice (tag : Tag) (first second : StateId)
  /-- there is no such state -/
  | missingState (state : StateId)
  /-- there is no such branch buffer -/
  | missingScratch (index : Nat)
  /-- a tag belongs to no machine around the jump -/
  | foreignTag (tag : Tag)
  /-- a statement needs lowering for no known reason -/
  | noMarker (loc : Location)
  /-- a statement was to be lowered as a loop and is none -/
  | notALoop (loc : Location)
  /-- a nested machine is built and there is no machine around it -/
  | frameUnderflow
  /-- a parameter of that name has no field -/
  | noField (name : String)
  deriving DecidableEq

/-- What the defect is. -/
def Defect.text : Defect → String
  | unresolvedDeclaration name => s!"declaration of `{name}` was not remapped"
  | missingTag tag => s!"tag #{tag.index} does not exist"
  | tagResolvedTwice tag first second =>
    s!"tag #{tag.index} resolved twice (to {first.number} and {second.number})"
  | missingState state => s!"state {state.number} does not exist"
  | missingScratch index => s!"scratch buffer {index} does not exist"
  | foreignTag tag => s!"tag #{tag.index} belongs to no enclosing machine"
  | noMarker loc => s!"{loc.text}: statement needs lowering but has no marker"
  | notALoop loc => s!"{loc.text}: not a loop"
  | frameUnderflow => "machine frame stack underflow"
  | noField name => s!"parameter `{name}` has no field"

/-- Why a procedure cannot be lowered. -/
inductive LoweringError where
  /-- a marker stands under a lock -/
  | illegalSuspension (marker : String) (loc : Location)
  /-- code under a lock would need states of its own -/
  | unsplittableLock (loc : Location)
  /-- a break has nothing to leave -/
  | unmatchedBreak (label : Option String) (loc : Location)
  /-- a continue has no loop to go on with -/
  | unmatchedContinue (label : Option String) (loc : Location)
  /-- a return has a value -/
  | returnWithValue (loc : Location)
  /-- a marker is not a statement of its own -/
  | misplacedMarker (marker : String) (loc : Location)
  /-- a label stands inside a statement with the same label -/
  | duplicateLabel (label : String) (loc : Location)
  /-- a tag was given no state -/
  | unresolvedTag (tag : Tag)
  /-- any other defect -/
  | defect (d : Defect)
  deriving DecidableEq

namespace LoweringError

/-- How a jump is quoted with its label. -/
def jumpText (word : String) : Option String → String
  | some label => s!"{word} {label}"
  | none => word

/-- The place of an error about the procedure. -/
def location? : LoweringError → Option Location
  | illegalSuspension _ loc | unsplittableLock loc | unmatchedBreak _ loc
  | unmatchedContinue _ loc | returnWithValue loc | misplacedMarker _ loc
  | duplicateLabel _ loc => some loc
  | unresolvedTag _ | defect _ => none

/-- Whether the error is a defect of lowering itself. -/
def isDefect : LoweringError → Bool
  | unresolvedTag _ | defect _ => true
  | _ => false

/-- The message of an error. -/
def message : LoweringError → String
  | illegalSuspension marker loc =>
    s!"{loc.text}: `{marker}` cannot suspend inside a synchronized block"
  | unsplittableLock loc =>
    s!"{loc.text}: synchronized block would have to be split across resumable states"
  | unmatchedBreak label loc =>
    loc.text ++ ": `" ++ jumpText "break" label ++ "` has no enclosing loop, switch or label"
  | unmatchedContinue label loc =>
    loc.text ++ ": `" ++ jumpText "continue" label ++ "` has no enclosing loop"
  | returnWithValue loc =>
    s!"{loc.text}: a generator cannot return a value; use the emit marker instead"
  | misplacedMarker marker loc =>
    s!"{loc.text}: `{marker}` must be used as a statement on its own"
  | duplicateLabel label loc => s!"{loc.text}: label `{label}` is already in scope"
  | unresolvedTag tag => s!"internal error: jump tag #{tag.index} was never resolved to a state"
  | defect d => s!"internal error: {d.text}"

end LoweringError

end Resumable
