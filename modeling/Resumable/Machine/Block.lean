import Resumable.Lowering.Error

/-!
# Machines under construction

* a block starts with its first state open; each further state is opened at the end;
* ops may be added to any state, not only to the one opened last.
-/

namespace Resumable

/-- A machine under construction. -/
structure Block where
  /-- the number of the machine -/
  id : MachineId
  /-- its selector -/
  selector : SymbolId
  /-- its states so far -/
  states : Array MachineState
  deriving Inhabited

namespace Block

/-- A block with its first state open. -/
def new (id : MachineId) (selector : SymbolId) : Block := ⟨id, selector, #[.mk .start []]⟩

/-- The number of states. -/
def size (b : Block) : Nat := b.states.size

/-- Opens the next state. -/
def openState (b : Block) : StateId × Block :=
  let id : StateId := ⟨b.size + 1⟩
  (id, { b with states := b.states.push (.mk id []) })

/-- The state opened last. -/
def current (b : Block) : StateId := ⟨b.size⟩

/-- The ops of a state; none if there is no such state. -/
def ops (b : Block) (state : StateId) : List Op :=
  ((state.index?.bind fun i => b.states[i]?).map MachineState.ops).getD []

/-- Adds an op at the end of a state. -/
def push (b : Block) (state : StateId) (op : Op) : Except LoweringError Block :=
  match state.index? with
  | some i =>
    if i < b.size then
      .ok { b with states := b.states.modify i fun s => .mk s.id (s.ops ++ [op]) }
    else .error (.defect (.missingState state))
  | none => .error (.defect (.missingState state))

/-- The finished machine. -/
def finish (b : Block) : Machine := .mk b.id b.selector b.states.toList

end Block

end Resumable
