import Resumable.Tree.Stmt

/-!
# Dispatch machines

A machine is a selector variable and a list of states; running it means to run the ops of the
state that the selector holds, again and again.

* states are numbered from 1 in order; the number 0 says that the machine has finished;
* jumps name tags, which stand for states and may be made before their states are;
* a guard runs a nested machine, the body and the handlers of a try;
* an op is terminal if control never passes it.
-/

namespace Resumable

/-- The number of a state in its machine. It is meant to fit a 32-bit word, which nothing checks. -/
structure StateId where
  number : Nat
  deriving DecidableEq, Inhabited

namespace StateId

/-- The selector of a machine that has finished. -/
def finished : StateId := ⟨0⟩

/-- The state in which a machine starts. -/
def start : StateId := ⟨1⟩

/-- The index of a state in the list of its machine. -/
def index? (s : StateId) : Option Nat :=
  match s.number with
  | 0 => none
  | n + 1 => some n

end StateId

/-- The number of a machine; nested machines come after those that hold them. It is meant to fit a
32-bit word, which nothing checks. -/
structure MachineId where
  number : Nat
  deriving DecidableEq, Inhabited

namespace MachineId

/-- The machine that nothing encloses. -/
def root : MachineId := ⟨0⟩

end MachineId

/-- A name for a state that may be fixed later. -/
structure Tag where
  index : Nat
  deriving DecidableEq, Inhabited

namespace Tag

/-- The tag for the end of the root machine. -/
def finished : Tag := ⟨0⟩

end Tag

/-- A choice of a switch op: labels, whether it is the default, and where it leads. -/
structure SwitchArm where
  labels : List Expr
  isDefault : Bool
  target : Tag
  deriving Inhabited

/-- A handler of a guard, which starts at a state of the nested machine. -/
structure Handler where
  /-- the field for the failure -/
  param : SymbolId
  /-- the types of failures that it takes -/
  types : List TypeRef
  /-- where it starts -/
  entry : Tag
  deriving Inhabited

/-- What a guard keeps beside its nested machine. -/
structure GuardFields where
  /-- the fields of the resources, in declared order -/
  resources : List SymbolId
  /-- the handlers -/
  handlers : List Handler
  /-- the field that says whether a handler has been entered -/
  inHandler : SymbolId
  /-- the field of the failure that waits for the final code -/
  pending : SymbolId
  /-- the field of the tag to go to after the final code, or -1 -/
  pendingJump : SymbolId
  deriving Inhabited

mutual

/-- One step of a state. -/
inductive Op where
  /-- a statement that never leaves the state -/
  | plain (s : Stmt)
  /-- stores a value in a field -/
  | assign (target : SymbolId) (value : Expr)
  /-- drops the reference in a field -/
  | clear (field : SymbolId)
  /-- stores a state in the selector -/
  | setState (tag : Tag)
  /-- goes on at another state -/
  | jump (tag : Tag)
  /-- suspends with a value; the selector stays as it is -/
  | yield (value : Expr)
  /-- ends the machine -/
  | finish
  /-- one of two lists of ops -/
  | cond (test : Expr) (yes no : List Op)
  /-- goes on at the first arm that fits, if one does -/
  | switch (selector : Expr) (arms : List SwitchArm)
  /-- ops under a lock -/
  | synchronized (lock : Expr) (body : List Op)
  /-- runs a nested machine under handlers -/
  | guarded (machine : Machine) (fields : GuardFields)
  /-- raises the failure that waits in a field, if there is one -/
  | rethrow (pending : SymbolId)

/-- A numbered list of ops. -/
inductive MachineState where
  | mk (id : StateId) (ops : List Op)

/-- A selector and states. -/
inductive Machine where
  | mk (id : MachineId) (selector : SymbolId) (states : List MachineState)

end

instance : Inhabited Op := ⟨.finish⟩
instance : Inhabited MachineState := ⟨.mk default []⟩
instance : Inhabited Machine := ⟨.mk default default []⟩

namespace MachineState

/-- The number that the state carries. -/
def id : MachineState → StateId
  | mk id _ => id

/-- The ops of the state. -/
def ops : MachineState → List Op
  | mk _ ops => ops

end MachineState

namespace Machine

/-- The number of the machine. -/
def id : Machine → MachineId
  | mk id _ _ => id

/-- The variable that holds the state to run. -/
def selector : Machine → SymbolId
  | mk _ selector _ => selector

/-- The states in order. -/
def states : Machine → List MachineState
  | mk _ _ states => states

/-- The state at the place of its number. -/
def state? (m : Machine) (s : StateId) : Option MachineState :=
  s.index?.bind fun i => m.states[i]?

end Machine

/-! ## Terminal ops -/

/-- Whether a statement raises an exception at its head. -/
def Stmt.isRaise : Stmt → Bool
  | .raise _ _ => true
  | _ => false

mutual

/-- Whether control never passes the op. -/
def Op.isTerminal : Op → Bool
  | .jump _ => true
  | .yield _ => true
  | .finish => true
  | .plain s => s.isRaise
  | .cond _ yes no => endsTerminal yes && endsTerminal no
  | .switch _ arms => arms.any fun arm => arm.isDefault
  | .synchronized _ body => endsTerminal body
  | .assign _ _ => false
  | .clear _ => false
  | .setState _ => false
  | .guarded _ _ => false
  | .rethrow _ => false

/-- Whether the last op is terminal. -/
def endsTerminal : List Op → Bool
  | [] => false
  | [op] => op.isTerminal
  | _ :: op :: ops => endsTerminal (op :: ops)

end

/-! ## Nested machines -/

mutual

/-- The machine and all machines in it, each before those that it holds. -/
def Machine.machines : Machine → List Machine
  | .mk id selector states => .mk id selector states :: machinesInStates states

/-- The machines in states. -/
def machinesInStates : List MachineState → List Machine
  | [] => []
  | .mk _ ops :: states => machinesInOps ops ++ machinesInStates states

/-- The machines in ops. -/
def machinesInOps : List Op → List Machine
  | [] => []
  | op :: ops => machinesInOp op ++ machinesInOps ops

/-- The machines in an op. -/
def machinesInOp : Op → List Machine
  | .guarded machine _ => machine.machines
  | .cond _ yes no => machinesInOps yes ++ machinesInOps no
  | .synchronized _ body => machinesInOps body
  | _ => []

end

end Resumable
