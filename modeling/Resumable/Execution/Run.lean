import Resumable.Execution.World

/-!
# Computations on variables

A run changes the variables of one generator, and through calls the world.

* a change stays when a run stops with a fault;
* a loop spends one unit of fuel on each round.
-/

namespace Resumable

/-- What a body can change. -/
structure Memory where
  /-- the values of its variables -/
  vars : Store
  /-- everything else -/
  world : World
  deriving Inhabited

/-- A computation that changes variables and the world. -/
abbrev Run := EStateM Halt Memory

namespace Run

/-- An effect as a computation that leaves the variables alone. -/
def ofEffect {α : Type} (x : Effect α) : Run α := fun m =>
  match x m.world with
  | .ok a w => .ok a { m with world := w }
  | .error e w => .error e { m with world := w }

instance : MonadLift Effect Run := ⟨ofEffect⟩

/-- Stops with a fault. -/
def fail {α : Type} (f : Fault) : Run α := throw (.fault f)

/-- Runs a computation and gives its fault as a result. -/
def attempt {σ α : Type} (x : EStateM Halt σ α) : EStateM Halt σ (Except Fault α) := fun m =>
  match x m with
  | .ok a m => .ok (.ok a) m
  | .error (.fault f) m => .ok (.error f) m
  | .error .outOfFuel m => .error .outOfFuel m

/-- Goes from point to point by `step` until it gives a result. -/
def loop {α β : Type} (step : β → Run (β ⊕ α)) : Nat → β → Run α
  | 0, _, m => .error .outOfFuel m
  | fuel + 1, b, m =>
    match step b m with
    | .ok (.inl b) m => loop step fuel b m
    | .ok (.inr a) m => .ok a m
    | .error e m => .error e m

/-- Repeats a step until it gives a result. -/
def repeatUntil {α : Type} (fuel : Nat) (step : Run (Option α)) : Run α :=
  loop (fun _ => do
    match ← step with
    | some a => return .inr a
    | none => return .inl ()) fuel ()

/-! ## Variables -/

/-- The value of a field of the generator. -/
def field (x : SymbolId) : Run Value := do
  match (← get).vars.get? x with
  | some v => pure v
  | none => fail (.breach (.missingField x))

/-- Gives a field a value. -/
def setField (x : SymbolId) (v : Value) : Run Unit :=
  modify fun m => { m with vars := m.vars.set x v }

/-- Takes the value out of a field, which is null afterwards. -/
def takeField (x : SymbolId) : Run Value := do
  let old := ((← get).vars.get? x).getD .null
  setField x .null
  return old

/-- The value of a variable. -/
def load (x : Ident) : Run Value := do
  match x.symbol.bind (← get).vars.get? with
  | some v => pure v
  | none => fail (.unboundVariable x.name)

/-- Gives a variable a value. -/
def store (x : Ident) (v : Value) : Run Unit :=
  match x.symbol with
  | some s => setField s v
  | none => fail (.unboundVariable x.name)

end Run

/-! ## Failures -/

/-- The exception that a handler sees for a fault; a fault that no handler may see goes on. -/
def Fault.caught : Fault → Effect Value
  | thrown failure => pure failure
  | noSuchElement => World.newException "NoSuchElementException" noSuchElement.message
  | f => World.fail f

end Resumable
