import Resumable.Lowering.State
import Resumable.Suspension

/-!
# Lowering of each construct

How a statement is lowered, given how its parts are. A part is told what stands around it and
where to add its ops, and answers where to go on; an answer other than the cursor that it was
given says that it crossed a suspension.

* branches are lowered into buffers first; a choice between branches that stay in the state is one
  op, and any other choice ends its state and goes on in a new one;
* a loop is a body state, a state that updates, a state that tests, and a state behind it;
* the cases of a switch are states, each of which goes on to the next;
* the body and the handlers of a try are a nested machine; its final code is part of the enclosing
  one and passes on failures and transfers that wait for it.
-/

namespace Resumable

namespace Lowering

/-- The lowering of a part of a statement. -/
abbrev Part := Context → Cursor → Lower Cursor

namespace Part

/-- A statement that is kept as it is unless it has to be lowered. -/
def unlessPlain (s : Stmt) (part : Part) : Part := fun ctx cursor => do
  if s.needsLowering ctx.markers then part ctx cursor
  else
    emit cursor (.plain s)
    return cursor

/-- A part in a scope of its own. -/
def inScope (part : Part) : Part := fun ctx cursor => withScope (part ctx) cursor

/-! ## Simple statements -/

/-- A declaration. The variable becomes a field. -/
def declare (d : LocalDecl) (loc : Location) : Part := fun ctx cursor => do
  let symbol ← declared d.name
  d.init.forM (checkNoMarker ctx loc)
  captureLocal ctx symbol d.type
  d.init.forM fun e => emit cursor (.assign symbol e)
  return cursor

/-- Emits a value: the state suspends, and a new one is where it resumes. -/
def yield (value : Expr) : Part := fun _ cursor => do
  let resume ← freshTag
  emit cursor (.setState resume)
  emit cursor (.yield value)
  enterState resume

/-- A call of a method without arguments on a variable. -/
def callOn (x : Ident) (method : String) : Expr := .method (.ident x) method []

/-- Emits every value of an iterator: a state asks it again on every resume. -/
def yieldAll (sequence : Expr) : Part := fun ctx cursor => do
  let type := TypeRef.iteratorOf ctx.elementType
  let handle ← newField ctx "delegate" type .synthetic
  emit cursor (.assign handle sequence)
  let poll ← freshTag
  let state ← continueAt cursor poll
  let x := (← get).symbols.ident handle
  emit state (.cond (callOn x "hasNext") [.yield (callOn x "next")] [])
  if livenessOf ctx type = .clearedAtScopeEnd then emit state (.clear handle)
  return state

/-- An expression as a statement: a marker, or an expression without markers. -/
def expr (e : Expr) (loc : Location) : Part := fun ctx cursor =>
  match e.asMarker? ctx.markers with
  | some (kind, arg) => do
    checkNoMarker ctx loc arg
    match kind with
    | .emit => yield arg ctx cursor
    | .emitAll => yieldAll arg ctx cursor
  | none =>
    unlessPlain (.expr e loc) (fun ctx _ => do
      checkNoMarker ctx loc e
      throw (.defect (.noMarker loc))) ctx cursor

/-- A statement that raises an exception. -/
def raise (e : Expr) (loc : Location) : Part :=
  unlessPlain (.raise e loc) fun ctx _ => do
    checkNoMarker ctx loc e
    throw (.defect (.noMarker loc))

/-- A return, which may not have a value. -/
def ret (value : Option Expr) (loc : Location) : Part := fun ctx cursor =>
  match value with
  | some _ => throw (.returnWithValue loc)
  | none => transfer ctx .finished cursor

/-- A break. -/
def brk (label : Option String) (loc : Location) : Part := fun ctx cursor => do
  transfer ctx (← breakTarget ctx label loc) cursor

/-- A continue. -/
def cont (label : Option String) (loc : Location) : Part := fun ctx cursor => do
  transfer ctx (← continueTarget ctx label loc) cursor

/-! ## Choices -/

/-- A branch in a buffer of its own, or an empty buffer. -/
def branch (part : Option Part) : Context → Lower (Nat × Cursor) := fun ctx => do
  let buffer ← newScratch
  match part with
  | some part => return (buffer, ← inScope part ctx (.scratch buffer))
  | none => return (buffer, .scratch buffer)

/-- A choice between two branches. -/
def cond (test : Expr) (loc : Location) (yes : Part) (no : Option Part) : Part :=
  fun ctx cursor => do
    checkNoMarker ctx loc test
    let (yesBuffer, yesEnd) ← branch (some yes) ctx
    let (noBuffer, noEnd) ← branch no ctx
    if yesEnd = .scratch yesBuffer ∧ noEnd = .scratch noBuffer then
      let noOps ← takeScratch noBuffer
      let yesOps ← takeScratch yesBuffer
      emit cursor (.cond test yesOps noOps)
      return cursor
    else
      let join ← freshTag
      endWith yesEnd (.jump join)
      endWith noEnd (.jump join)
      let noOps ← takeScratch noBuffer
      let yesOps ← takeScratch yesBuffer
      emit cursor (.cond test yesOps noOps)
      continueAt cursor join

/-! ## Loops -/

/-- What the four loops have in common. -/
structure LoopShape where
  /-- the label of the loop -/
  label : Option String
  /-- whether the test comes before the first round -/
  testFirst : Bool
  /-- the test; none for a loop without end -/
  test : Option Expr
  /-- what every round starts with -/
  start : List Op
  /-- what comes between two rounds -/
  update : List Expr

/-- A loop: body, update, test, and the state behind it. -/
def loop (shape : LoopShape) (loc : Location) (body : Part) : Part := fun ctx cursor => do
  let bodyTag ← freshTag
  let testTag ← freshTag
  let endTag ← freshTag
  let updateTag ← if shape.update.isEmpty then pure none else some <$> freshTag
  let continueTag := updateTag.getD testTag
  endWith cursor (.jump (if shape.testFirst then testTag else bodyTag))
  let bodyState ← enterState bodyTag
  emitAll bodyState shape.start
  let depth := (← get).scopes.length
  let inside := ctx.enter ⟨.loop, shape.label, endTag, some continueTag, depth⟩
  let bodyEnd ← inScope body inside bodyState
  endWith bodyEnd (.jump continueTag)
  match updateTag with
  | some tag => do
    let state ← enterState tag
    emitAll state (shape.update.map fun e => .plain (.expr e loc))
    emit state (.jump testTag)
  | none => pure ()
  let testState ← enterState testTag
  match shape.test with
  | some test => do
    emit testState (.cond test [.jump bodyTag] [])
    emit testState (.jump endTag)
  | none => emit testState (.jump bodyTag)
  enterState endTag

/-- A loop that tests before or after each round. -/
def testLoop (label : Option String) (testFirst : Bool) (test : Expr) (loc : Location)
    (body : Part) : Part := fun ctx cursor => do
  checkNoMarker ctx loc test
  loop ⟨label, testFirst, some test, [], []⟩ loc body ctx cursor

/-- A loop with a header of start, test and update. -/
def forLoop (label : Option String) (init : Part) (test : Option Expr) (update : List Expr)
    (loc : Location) (body : Part) : Part := fun ctx cursor => do
  test.forM (checkNoMarker ctx loc)
  update.forM (checkNoMarker ctx loc)
  withScope (fun cursor => do
    let cursor ← init ctx cursor
    loop ⟨label, true, test, [], update⟩ loc body ctx cursor) cursor

/-- A loop over an iterable: a handle is asked before each round. -/
def forEach (label : Option String) (var : LocalDecl) (iterable : Expr) (loc : Location)
    (body : Part) : Part := fun ctx cursor => do
  checkNoMarker ctx loc iterable
  let symbol ← declared var.name
  withScope (fun cursor => do
    let type := TypeRef.iteratorOf var.type
    let handle ← newField ctx "iter" type .synthetic
    if livenessOf ctx type = .clearedAtScopeEnd then dropAtScopeEnd handle
    emit cursor (.assign handle (.method iterable "iterator" []))
    captureLocal ctx symbol var.type
    let x := (← get).symbols.ident handle
    loop ⟨label, true, some (callOn x "hasNext"), [.assign symbol (callOn x "next")], []⟩ loc body
      ctx cursor) cursor

/-! ## Switches, labels and locks -/

/-- A case of a switch whose statements are lowered by `body`. -/
structure CasePart where
  labels : List Expr
  isDefault : Bool
  body : Part

/-- The states of cases, each of which goes on to the next, and the last one to `endTag`. -/
def caseStates (ctx : Context) (endTag : Tag) : List (CasePart × Tag) → Lower Unit
  | [] => return ()
  | (c, tag) :: rest => do
    let state ← enterState tag
    let stop ← c.body ctx state
    endWith stop (.jump ((rest.head?.map Prod.snd).getD endTag))
    caseStates ctx endTag rest

/-- A switch. -/
def switch (selector : Expr) (loc : Location) (cases : List CasePart) : Part :=
  fun ctx cursor => do
    checkNoMarker ctx loc selector
    (cases.flatMap CasePart.labels).forM (checkNoMarker ctx loc)
    withScope (fun cursor => do
      let endTag ← freshTag
      let tags ← cases.mapM fun _ => freshTag
      let arms := (cases.zip tags).map fun (c, tag) => ⟨c.labels, c.isDefault, tag⟩
      emit cursor (.switch selector arms)
      if !arms.any SwitchArm.isDefault then emit cursor (.jump endTag)
      let depth := (← get).scopes.length
      caseStates (ctx.enter ⟨.switch, none, endTag, none, depth⟩) endTag (cases.zip tags)
      enterState endTag) cursor

/-- Refuses a label that is in force already. -/
def checkLabel (ctx : Context) (label : String) (loc : Location) : Lower Unit :=
  if ctx.controls.any fun c => c.label == some label then throw (.duplicateLabel label loc)
  else return ()

/-- A labelled statement that is no loop. -/
def labeled (label : String) (body : Part) : Part := fun ctx cursor => do
  let endTag ← freshTag
  let depth := (← get).scopes.length
  let stop ← inScope body (ctx.enter ⟨.labeled, some label, endTag, none, depth⟩) cursor
  continueAt stop endTag

/-- Code under a lock, which must stay in its state. -/
def synchronized (lock : Expr) (marker : Markers → Option (String × Location)) (loc : Location)
    (body : Part) : Part := fun ctx cursor => do
  checkNoMarker ctx loc lock
  match marker ctx.markers with
  | some (name, place) => throw (.illegalSuspension name place)
  | none =>
    let buffer ← newScratch
    let stop ← inScope body ctx (.scratch buffer)
    if stop = .scratch buffer then
      emit cursor (.synchronized lock (← takeScratch buffer))
      return cursor
    else throw (.unsplittableLock loc)

/-! ## Guarded statements -/

/-- A handler whose statements are lowered by `body`. -/
structure CatchPart where
  param : Ident
  types : List TypeRef
  body : Part

/-- The states of the handlers, in the nested machine. -/
def handlers (ctx : Context) : List CatchPart → Lower (List Handler)
  | [] => return []
  | c :: rest => do
    let param ← declared c.param
    let entry ← freshTag
    let state ← enterState entry
    let stop ← withScope (fun cursor => do
      captureLocal ctx param (CatchClause.paramTypeOf c.types)
      c.body ctx cursor) state
    endWith stop .finish
    return ⟨param, c.types, entry⟩ :: (← handlers ctx rest)

/-- The nested machine: the first values of the resources, the body, and the handlers. -/
def guardedBody (ctx : Context) (resources : List (SymbolId × Option Expr)) (body : Part)
    (catches : List CatchPart) : Lower (List Handler) := do
  let stop ← withScope (fun cursor => do
    resources.forM fun (symbol, init) => init.forM fun e => emit cursor (.assign symbol e)
    inScope body ctx cursor) (.state .start)
  endWith stop .finish
  handlers ctx catches

/-- Runs a step with a frame of its own, and answers with that frame as the step left it. -/
def withFrame {α : Type} (frame : Frame) (step : Lower α) : Lower (α × Frame) := do
  pushFrame frame
  let a ← step
  return (a, ← popFrame)

/-- Goes to each tag that the nested machine may have left for the enclosing one. -/
def dispatchExits (ctx : Context) (pendingJump : SymbolId) (cursor : Cursor) (exits : List Tag) :
    Lower Unit :=
  exits.forM fun tag => do
    let ops ← transferOps ctx tag
    let field := (← get).symbols.ident pendingJump
    emit cursor
      (.cond (.binary .eq (.ident field) (.int (Int64.ofNat tag.index))) ops [])

/-- A statement with resources, handlers and final code. -/
def tryCatch (resources : List LocalDecl) (body : Part) (catches : List CatchPart)
    (final : Option Part) (loc : Location) : Part := fun ctx cursor => do
  resources.forM fun d => d.init.forM (checkNoMarker ctx loc)
  let id : MachineId := ⟨(← get).nextMachine⟩
  modify fun s => { s with nextMachine := s.nextMachine + 1 }
  let selector ← newField ctx "selector" .int .selector
  let inHandler ← newField ctx "handling" .boolean .synthetic
  let pending ← newSymbol "pending" .throwable
  capture pending .throwable .synthetic .retained
  let pendingJump ← newField ctx "pendingJump" .int .synthetic
  let symbols ← resources.mapM fun d => do
    let symbol ← declared d.name
    capture symbol d.type .localVar .retained
    return symbol
  emit cursor (.assign selector (.int 1))
  emit cursor (.assign inHandler (.bool false))
  emit cursor (.assign pending .null)
  emit cursor (.assign pendingJump (.int (-1)))
  emitAll cursor (symbols.map fun symbol => .assign symbol .null)
  let tryTag ← freshTag
  let finalTag ← freshTag
  let endTag ← freshTag
  let guardState ← continueAt cursor tryTag
  let base := (← get).scopes.length
  let (handlers, frame) ← withFrame (.new id selector (some pendingJump) base)
    (guardedBody ctx (symbols.zip (resources.map LocalDecl.init)) body catches)
  emit guardState (.guarded frame.block.finish ⟨symbols, handlers, inHandler, pending, pendingJump⟩)
  emit guardState (.jump finalTag)
  let finalState ← enterState finalTag
  let finalEnd ←
    match final with
    | some part => inScope part ctx finalState
    | none => pure finalState
  if !(← isTerminal finalEnd) then
    emit finalEnd (.rethrow pending)
    dispatchExits ctx pendingJump finalEnd frame.exits
  continueAt finalEnd endTag

end Part

end Lowering

end Resumable
