import Resumable.Machine.Tags
import Resumable.Machine.Captures
import Resumable.Machine.Block
import Resumable.Settings

/-!
# The state of lowering

What lowering has built so far, and the steps that build it.

* ops are added at a cursor: to a state of the machine at hand, or to a buffer for a branch;
* a frame is a machine under construction; a try puts a frame of its own on the stack of frames
  until its body and handlers are lowered;
* the fields of references are listed with the scope that declares them and dropped where control
  leaves it; a transfer out of a nested machine leaves the scopes of that machine only, and the
  enclosing machine goes on from there.
-/

namespace Resumable

namespace Lowering

/-- Where ops are added. -/
inductive Cursor where
  /-- to a state of the machine at hand -/
  | state (id : StateId)
  /-- to a buffer for a branch -/
  | scratch (index : Nat)
  deriving DecidableEq, Inhabited

/-- What a jump can leave. -/
inductive ControlKind where
  | loop
  | switch
  | labeled
  deriving DecidableEq, Inhabited

/-- A statement around the one that is lowered, as a target of jumps. -/
structure Control where
  /-- what it is -/
  kind : ControlKind
  /-- its label -/
  label : Option String
  /-- where a break goes -/
  breakTag : Tag
  /-- where a continue goes; only a loop has one -/
  continueTag : Option Tag
  /-- the number of scopes around it -/
  scopeDepth : Nat
  deriving Inhabited

/-- A machine under construction. -/
structure Frame where
  /-- its states so far -/
  block : Block
  /-- the buffers for branches, the latest last -/
  scratch : Array (List Op)
  /-- the tags of other machines that it goes to, in the order of first use -/
  exits : List Tag
  /-- the field in which such a tag is left; none for the root machine -/
  pendingJump : Option SymbolId
  /-- the number of scopes around the machine -/
  scopeBase : Nat
  deriving Inhabited

/-- A machine of which nothing is built yet. -/
def Frame.new (id : MachineId) (selector : SymbolId) (pendingJump : Option SymbolId)
    (scopeBase : Nat) : Frame :=
  ⟨.new id selector, #[], [], pendingJump, scopeBase⟩

/-- What lowering has built so far. -/
structure State where
  /-- all variables -/
  symbols : SymbolTable
  /-- all tags -/
  tags : TagTable
  /-- all fields -/
  captures : CaptureSet
  /-- the machine at hand -/
  frame : Frame
  /-- the machines around it, innermost first -/
  outers : List Frame
  /-- the fields to drop at the end of each open scope, innermost scope and latest field first -/
  scopes : List (List SymbolId)
  /-- the number of the next nested machine -/
  nextMachine : Nat
  deriving Inhabited

/-- A step of lowering. -/
abbrev Lower := StateT State (Except LoweringError)

/-- What stands around the statement that is lowered. -/
structure Context where
  /-- the settings -/
  settings : Settings
  /-- the type of the emitted values -/
  elementType : TypeRef
  /-- the targets of jumps, innermost first -/
  controls : List Control
  deriving Inhabited

namespace Context

/-- The names of the markers. -/
def markers (ctx : Context) : Markers := ctx.settings.markers

/-- The context inside one more target of jumps. -/
def enter (ctx : Context) (c : Control) : Context := { ctx with controls := c :: ctx.controls }

end Context

/-! ## Ops and states -/

/-- Changes the machine at hand. -/
def modifyFrame (f : Frame → Frame) : Lower Unit :=
  modify fun s => { s with frame := f s.frame }

/-- Builds another machine; the one at hand waits. -/
def pushFrame (frame : Frame) : Lower Unit :=
  modify fun s => { s with frame, outers := s.frame :: s.outers }

/-- Ends the machine at hand and goes on with the one around it. -/
def popFrame : Lower Frame := do
  let s ← get
  match s.outers with
  | outer :: outers =>
    set { s with frame := outer, outers }
    return s.frame
  | [] => throw (.defect .frameUnderflow)

/-- Adds an op at a cursor. -/
def emit (cursor : Cursor) (op : Op) : Lower Unit := do
  let frame := (← get).frame
  match cursor with
  | .state id =>
    let block ← frame.block.push id op
    modifyFrame fun f => { f with block }
  | .scratch index =>
    if index < frame.scratch.size then
      modifyFrame fun f => { f with scratch := f.scratch.modify index (· ++ [op]) }
    else throw (.defect (.missingScratch index))

/-- Adds ops at a cursor, one after the other. -/
def emitAll (cursor : Cursor) (ops : List Op) : Lower Unit := ops.forM (emit cursor)

/-- The ops at a cursor. -/
def opsAt (frame : Frame) : Cursor → List Op
  | .state id => frame.block.ops id
  | .scratch index => frame.scratch[index]?.getD []

/-- Whether control cannot reach the end of the ops at a cursor. -/
def isTerminal (cursor : Cursor) : Lower Bool := return endsTerminal (opsAt (← get).frame cursor)

/-- Adds an op at a cursor unless control cannot reach it. -/
def endWith (cursor : Cursor) (op : Op) : Lower Unit := do
  if ← isTerminal cursor then return () else emit cursor op

/-- Opens a buffer for a branch. -/
def newScratch : Lower Nat := do
  let index := (← get).frame.scratch.size
  modifyFrame fun f => { f with scratch := f.scratch.push [] }
  return index

/-- Takes the ops of a buffer, and closes it if it is the one opened last. -/
def takeScratch (index : Nat) : Lower (List Op) := do
  let scratch := (← get).frame.scratch
  let rest := if index + 1 = scratch.size then scratch.pop else scratch.setIfInBounds index []
  modifyFrame fun f => { f with scratch := rest }
  return scratch[index]?.getD []

/-- A new tag for a state of the machine at hand. -/
def freshTag : Lower Tag :=
  modifyGet fun s =>
    let (tag, tags) := s.tags.fresh s.frame.block.id
    (tag, { s with tags })

/-- Opens the state of a tag. -/
def enterState (tag : Tag) : Lower Cursor := do
  let s ← get
  let (state, block) := s.frame.block.openState
  let tags ← s.tags.resolve tag state
  set { s with tags, frame := { s.frame with block } }
  return .state state

/-- Ends a cursor with a jump to a tag and opens the state of the tag. -/
def continueAt (cursor : Cursor) (tag : Tag) : Lower Cursor := do
  endWith cursor (.jump tag)
  enterState tag

/-! ## Fields and scopes -/

/-- How long a field of that type keeps its value. -/
def livenessOf (ctx : Context) (type : TypeRef) : Liveness :=
  if type.isPrimitive || !ctx.settings.clearReferences then .retained else .clearedAtScopeEnd

/-- Makes a variable a field. -/
def capture (symbol : SymbolId) (type : TypeRef) (origin : CaptureOrigin) (liveness : Liveness) :
    Lower Unit :=
  modify fun s =>
    { s with
      captures := s.captures.insert ⟨symbol, s.symbols.display symbol, type, liveness, origin⟩ }

/-- Lists a field with the innermost scope. -/
def dropAtScopeEnd (symbol : SymbolId) : Lower Unit :=
  modify fun s =>
    match s.scopes with
    | scope :: scopes => { s with scopes := (symbol :: scope) :: scopes }
    | [] => s

/-- Makes a declared variable a field; a reference is dropped where the scope at hand ends. -/
def captureLocal (ctx : Context) (symbol : SymbolId) (type : TypeRef) : Lower Unit := do
  capture symbol type .localVar (livenessOf ctx type)
  if livenessOf ctx type = .clearedAtScopeEnd then dropAtScopeEnd symbol

/-- A new variable that is not in the source. -/
def newSymbol (name : String) (type : TypeRef) : Lower SymbolId :=
  modifyGet fun s =>
    let (id, symbols) := s.symbols.declare name type .synthetic
    (id, { s with symbols })

/-- A new field that is not in the source. -/
def newField (ctx : Context) (name : String) (type : TypeRef) (origin : CaptureOrigin) :
    Lower SymbolId := do
  let symbol ← newSymbol name type
  capture symbol type origin (livenessOf ctx type)
  return symbol

/-- Runs a step in a scope of its own, and drops what the scope declared where it ends. -/
def withScope (step : Cursor → Lower Cursor) (cursor : Cursor) : Lower Cursor := do
  modify fun s => { s with scopes := [] :: s.scopes }
  let stop ← step cursor
  let declared := (← get).scopes.headD []
  modify fun s => { s with scopes := s.scopes.tail }
  if ← isTerminal stop then return stop
  emitAll stop (declared.map Op.clear)
  return stop

/-- The variable of a declaration. -/
def declared (x : Ident) : Lower SymbolId :=
  match x.symbol with
  | some symbol => return symbol
  | none => throw (.defect (.unresolvedDeclaration x.name))

/-! ## Transfers of control -/

/-- Refuses an expression that holds a marker. -/
def checkNoMarker (ctx : Context) (loc : Location) (e : Expr) : Lower Unit :=
  match e.findMarker? ctx.markers with
  | some marker => throw (.misplacedMarker marker loc)
  | none => return ()

/-- Where a break goes. -/
def breakTarget (ctx : Context) (label : Option String) (loc : Location) : Lower Tag :=
  let found : Option Control :=
    match label with
    | none => ctx.controls.find? fun c => c.kind == .loop || c.kind == .switch
    | some name => ctx.controls.find? fun c => c.label == some name
  match found with
  | some c => return c.breakTag
  | none => throw (.unmatchedBreak label loc)

/-- Where a continue goes. -/
def continueTarget (ctx : Context) (label : Option String) (loc : Location) : Lower Tag :=
  let found : Option Control :=
    match label with
    | none => ctx.controls.find? fun c => c.kind == .loop
    | some name => ctx.controls.find? fun c => c.label == some name
  match found.bind Control.continueTag with
  | some tag => return tag
  | none => throw (.unmatchedContinue label loc)

/-- The number of scopes around the statement that a tag leads to; none around the end. -/
def targetDepth (ctx : Context) (tag : Tag) : Nat :=
  match ctx.controls.find? fun c => c.breakTag = tag ∨ c.continueTag = some tag with
  | some c => c.scopeDepth
  | none => 0

/-- Drops the fields of all scopes that a transfer to a tag leaves within the machine at hand. -/
def exitClears (ctx : Context) (tag : Tag) (s : State) : List Op :=
  let depth := max (targetDepth ctx tag) s.frame.scopeBase
  (s.scopes.take (s.scopes.length - depth)).flatten.map Op.clear

/-- The ops that transfer control to a tag: within its machine they jump or finish, and in a nested
machine they leave the tag for the enclosing one and finish. -/
def transferOps (ctx : Context) (tag : Tag) : Lower (List Op) := do
  let s ← get
  let clears := exitClears ctx tag s
  if s.tags.owner tag = s.frame.block.id then
    return clears ++ [if tag = .finished then .finish else .jump tag]
  match s.frame.pendingJump with
  | none => throw (.defect (.foreignTag tag))
  | some field =>
    modifyFrame fun f => if f.exits.contains tag then f else { f with exits := f.exits ++ [tag] }
    return clears ++ [.assign field (.int (Int64.ofNat tag.index)), .finish]

/-- Transfers control to a tag. -/
def transfer (ctx : Context) (tag : Tag) (cursor : Cursor) : Lower Cursor := do
  emitAll cursor (← transferOps ctx tag)
  return cursor

end Lowering

end Resumable
