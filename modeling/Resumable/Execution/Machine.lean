import Resumable.Execution.Stmt

/-!
# Execution of machines

* a machine runs the state that its selector holds until it suspends or finishes; a state that ends
  without a jump goes on in the state behind it;
* a guard runs a nested machine. When the body of the try is over it closes the resources, and a
  failure goes to the first handler that takes it; a failure that nobody takes, or that a handler
  raises, waits in a field for the end of the final code.
-/

namespace Resumable

/-- How a list of ops ends. -/
inductive Flow where
  /-- with what follows it -/
  | next
  /-- at the state that the selector holds now -/
  | dispatch
  /-- with a value that is emitted -/
  | suspend (v : Value)
  /-- with the end of the machine -/
  | done
  deriving Inhabited

/-- What machines are run with. -/
structure Engine where
  /-- the outside -/
  host : Host
  /-- the tags of all machines -/
  tags : TagTable
  /-- how many rounds a loop may take -/
  fuel : Nat

namespace Run

/-- Puts the state of a tag in a selector. -/
def setState (tags : TagTable) (selector : SymbolId) (tag : Tag) : Run Unit :=
  match tags.target? tag with
  | some s => setField selector (.ofState s.number)
  | none => fail (.breach (.unresolvedTag tag.index))

/-- Whether and where a switch goes on. -/
def armOf (h : Host) (v : Value) : List SwitchArm → Run (Option Tag)
  | [] => pure none
  | arm :: arms => do
    if ← anyLabel h v arm.labels then return some arm.target else armOf h v arms

/-- The tag that a switch goes on at. -/
def chooseArm (h : Host) (v : Value) (arms : List SwitchArm) : Run (Option Tag) := do
  match ← armOf h v arms with
  | some tag => return some tag
  | none => return (arms.find? SwitchArm.isDefault).map SwitchArm.target

/-! ## Dispatch -/

/-- Runs the state of a number, and says where the machine goes on: at the state that the selector
holds, or at a state of a known number. -/
def enterState (states : Nat → Option (Run Flow)) (number : Int) :
    Run (Option Int ⊕ Option Value) :=
  let body : Option (Run Flow) :=
    match number with
    | .ofNat (n + 1) => states n
    | _ => none
  match body with
  | none => fail (.unreachable number)
  | some body => do
    match ← body with
    | .next => return .inl (some (number + 1))
    | .dispatch => return .inl none
    | .suspend v => return .inr (some v)
    | .done => return .inr none

/-- Runs states from the one that the selector holds until one suspends or the machine finishes.
The states are given by their places. -/
def dispatch (fuel : Nat) (selector : SymbolId) (states : Nat → Option (Run Flow)) :
    Run (Option Value) :=
  loop (fun
    | some number => enterState states number
    | none => do
      let number ← (← field selector).asInt
      if number = 0 then return .inr none else enterState states number.toInt) fuel none

/-! ## Guards -/

/-- Closes the resources in fields, from the front, and empties the fields. A failure to close is
added to the failure that is there already, or else becomes it. -/
def closeFields (h : Host) : Option Value → List SymbolId → Run (Option Value)
  | primary, [] => pure primary
  | primary, x :: xs => do
    let v ← takeField x
    if v.isNull then closeFields h primary xs
    else
      match ← attempt (ofEffect (v.invoke h "close" [])) with
      | .ok _ => closeFields h primary xs
      | .error f => do
        let failure ← f.caught
        match primary with
        | some p => do
          World.addSuppressed p failure
          closeFields h (some p) xs
        | none => closeFields h (some failure) xs

/-- Closes the resources in fields in reverse order. -/
def closeResources (h : Host) (resources : List SymbolId) (primary : Option Value) :
    Run (Option Value) :=
  closeFields h primary resources.reverse

/-- Where a guard goes after its body has failed: into the first handler that takes the failure, or
else out with the failure waiting. -/
def enterHandler (tags : TagTable) (selector : SymbolId) (g : GuardFields) (failure : Value) :
    Run (Option Flow) := do
  setField g.pendingJump (.int (-1))
  match g.handlers.find? fun handler => failure.isAnyOf handler.types with
  | some handler => do
    setField g.inHandler (.bool true)
    setField handler.param failure
    setState tags selector handler.entry
    return none
  | none => do
    setField g.pending failure
    return some .next

/-- One stay in the machine of a guard. Gives how the guard ends, if it does. -/
def guardRound (e : Engine) (g : GuardFields) (selector : SymbolId) (machine : Run (Option Value)) :
    Run (Option Flow) := do
  let handling ← (← field g.inHandler).asBool
  match ← attempt machine with
  | .ok (some v) => return some (.suspend v)
  | .ok none =>
    if handling then return some .next
    else
      match ← closeResources e.host g.resources none with
      | none => return some .next
      | some failure => enterHandler e.tags selector g failure
  | .error f => do
    let failure ← f.caught
    if handling then do
      setField g.pending failure
      return some .next
    else do
      let _ ← closeResources e.host g.resources (some failure)
      enterHandler e.tags selector g failure

end Run

/-! ## Ops -/

/-- The flow after a plain statement. -/
def afterPlain (location : Location) : Completion → Run Flow
  | .normal => pure .next
  | .jump j => Run.fail (.breach (.escaped location j))

mutual

/-- Runs an op of the machine with that selector. -/
def Op.exec (e : Engine) (selector : SymbolId) : Op → Run Flow
  | .plain s => do afterPlain s.location (← s.exec e.host e.fuel none)
  | .assign target value => do
    let v ← value.eval e.host
    Run.setField target v
    return .next
  | .clear x => do
    Run.setField x .null
    return .next
  | .setState tag => do
    Run.setState e.tags selector tag
    return .next
  | .jump tag => do
    Run.setState e.tags selector tag
    return .dispatch
  | .yield value => do return .suspend (← value.eval e.host)
  | .finish => do
    Run.setField selector (.ofState StateId.finished.number)
    return .done
  | .cond test yes no => do
    if ← test.test e.host then execOps e selector yes else execOps e selector no
  | .switch scrutinee arms => do
    let v ← scrutinee.eval e.host
    match ← Run.chooseArm e.host v arms with
    | some tag => do
      Run.setState e.tags selector tag
      return .dispatch
    | none => return .next
  | .synchronized x body => do
    lock e.host x
    execOps e selector body
  | .guarded (.mk id own states) fields =>
    Run.repeatUntil e.fuel (Run.guardRound e fields own (Machine.exec e (.mk id own states)))
  | .rethrow pending => do
    let failure ← Run.takeField pending
    if failure.isNull then return .next else Run.fail (.thrown failure)

/-- Runs ops until one does not go on with what follows it. -/
def execOps (e : Engine) (selector : SymbolId) : List Op → Run Flow
  | [] => pure .next
  | op :: ops => do
    match ← op.exec e selector with
    | .next => execOps e selector ops
    | flow => return flow

/-- The ops of the state at a place. -/
def execState (e : Engine) (selector : SymbolId) : List MachineState → Nat → Option (Run Flow)
  | [], _ => none
  | .mk _ ops :: _, 0 => some (execOps e selector ops)
  | _ :: states, n + 1 => execState e selector states n

/-- Runs a machine until it emits a value or finishes. -/
def Machine.exec (e : Engine) : Machine → Run (Option Value)
  | .mk _ selector states =>
    Run.dispatch e.fuel selector fun n => execState e selector states n

end

end Resumable
