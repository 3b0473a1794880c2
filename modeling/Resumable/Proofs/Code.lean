import Resumable.Lowering.Lower

/-!
# The code of a statement

Lowering adds ops at a cursor and opens states behind it. This file says what it adds, apart from
how it keeps its cursors and buffers.

* `Code` is what a piece of lowering adds: ops where it stands, and the states that it opens. The
  last of these is where lowering goes on, so pieces of code are joined end to end;
* `Ledger` is what lowering knows besides ops: variables, tags, fields, scopes and the machine;
* `Made` gives one rule for each construct: which code is made of it in which context, and what the
  ledger is afterwards.
-/

namespace Resumable

namespace Lowering

/-! ## Code -/

/-- Ops for the cursor at hand, and the ops of the states opened behind it. -/
structure Code where
  /-- what is added at the cursor -/
  ops : List Op
  /-- the new states; lowering goes on at the end of the last one -/
  states : List (List Op)

namespace Code

/-- Ops that open no state. -/
def now (ops : List Op) : Code := ⟨ops, []⟩

/-- A new state without ops. -/
def opened : Code := ⟨[], [[]]⟩

/-- Ops and states, with more code at the end of the last of them. -/
def extend : List Op → List (List Op) → Code → Code
  | ops, [], b => ⟨ops ++ b.ops, b.states⟩
  | ops, s :: ss, b => ⟨ops, (extend s ss b).ops :: (extend s ss b).states⟩

instance : Append Code := ⟨fun a b => extend a.ops a.states b⟩

@[simp] theorem now_append (ops : List Op) (b : Code) :
    now ops ++ b = ⟨ops ++ b.ops, b.states⟩ := rfl

@[simp] theorem mk_nil_append (ops : List Op) (b : Code) :
    (⟨ops, []⟩ : Code) ++ b = ⟨ops ++ b.ops, b.states⟩ := rfl

@[simp] theorem mk_cons_append (ops s : List Op) (ss : List (List Op)) (b : Code) :
    (⟨ops, s :: ss⟩ : Code) ++ b
      = ⟨ops, ((⟨s, ss⟩ : Code) ++ b).ops :: ((⟨s, ss⟩ : Code) ++ b).states⟩ := rfl

@[simp] theorem append_nil (a : Code) : a ++ now [] = a := by
  obtain ⟨ops, ss⟩ := a
  induction ss generalizing ops with
  | nil => simp [now]
  | cons s ss ih => simp [ih]

/-- Three codes in a row need no brackets. -/
theorem append_assoc (a b c : Code) : a ++ b ++ c = a ++ (b ++ c) := by
  obtain ⟨ops, ss⟩ := a
  induction ss generalizing ops with
  | nil =>
    obtain ⟨ops', ss'⟩ := b
    cases ss' with
    | nil | cons => simp
  | cons s ss ih =>
    have h := ih s
    simp only [mk_cons_append, h]

@[simp] theorem length_states_append (a b : Code) :
    (a ++ b).states.length = a.states.length + b.states.length := by
  obtain ⟨ops, ss⟩ := a
  induction ss generalizing ops with
  | nil => simp
  | cons s ss ih => simp [ih, Nat.add_right_comm]

/-- The last of the states, or the ops if there is none. -/
def lastOf : List Op → List (List Op) → List Op
  | ops, [] => ops
  | _, s :: ss => lastOf s ss

/-- The ops at the cursor where code stops, if the code starts behind the ops `cur`. -/
def stop (cur : List Op) (c : Code) : List Op := lastOf (cur ++ c.ops) c.states

@[simp] theorem stop_mk_nil (cur ops : List Op) : stop cur ⟨ops, []⟩ = cur ++ ops := rfl

@[simp] theorem stop_now (cur ops : List Op) : stop cur (now ops) = cur ++ ops := rfl

@[simp] theorem stop_opened (cur : List Op) : stop cur opened = [] := rfl

@[simp] theorem stop_mk_cons (cur ops s : List Op) (ss : List (List Op)) :
    stop cur ⟨ops, s :: ss⟩ = stop [] ⟨s, ss⟩ := rfl

@[simp] theorem stop_append (cur : List Op) (a b : Code) :
    stop cur (a ++ b) = stop (stop cur a) b := by
  obtain ⟨ops, ss⟩ := a
  induction ss generalizing cur ops with
  | nil =>
    obtain ⟨ops', ss'⟩ := b
    cases ss' with
    | nil | cons => simp
  | cons s ss ih => simp [ih]

/-- What ends the ops `cur`: nothing where control cannot reach their end. -/
def sealing (cur : List Op) (op : Op) : List Op := if endsTerminal cur then [] else [op]

/-- Code that starts behind the ops `cur`, ended with an op. -/
def sealed (cur : List Op) (c : Code) (op : Op) : Code := c ++ now (sealing (c.stop cur) op)

@[simp] theorem length_states_sealed (cur : List Op) (c : Code) (op : Op) :
    (c.sealed cur op).states.length = c.states.length := by
  simp [sealed, now]

end Code

/-! ## Tags -/

end Lowering

/-- The table with `n` more tags for states of `owner`. -/
def TagTable.reserve (t : TagTable) (owner : MachineId) (n : Nat) : TagTable :=
  ⟨t.slots ++ Array.replicate n ⟨owner, none⟩⟩

namespace Lowering

namespace Context

/-- What a break leaves. -/
def breakControl? (ctx : Context) : Option String → Option Control
  | none => ctx.controls.find? fun c => c.kind == .loop || c.kind == .switch
  | some name => ctx.controls.find? fun c => c.label == some name

/-- What a continue goes on with, if it is a loop. -/
def continueControl? (ctx : Context) : Option String → Option Control
  | none => ctx.controls.find? fun c => c.kind == .loop
  | some name => ctx.controls.find? fun c => c.label == some name

/-- Where a break goes, if there is something to leave. -/
def breakTag? (ctx : Context) (label : Option String) : Option Tag :=
  (ctx.breakControl? label).map Control.breakTag

/-- Where a continue goes, if there is a loop to go on with. -/
def continueTag? (ctx : Context) (label : Option String) : Option Tag :=
  (ctx.continueControl? label).bind Control.continueTag

end Context

/-! ## Ledgers -/

/-- What lowering knows besides ops. -/
structure Ledger where
  /-- all variables -/
  symbols : SymbolTable
  /-- all tags -/
  tags : TagTable
  /-- all fields -/
  captures : CaptureSet
  /-- the fields to drop at the end of each open scope -/
  scopes : List (List SymbolId)
  /-- the number of the next nested machine -/
  nextMachine : Nat
  /-- the machine at hand -/
  machine : MachineId
  /-- its selector -/
  selector : SymbolId
  /-- the field in which it leaves tags of other machines -/
  pendingJump : Option SymbolId
  /-- the number of scopes around it -/
  scopeBase : Nat
  /-- the tags of other machines that it goes to -/
  exits : List Tag
  /-- the number of its states -/
  size : Nat

/-- What is known at a point of lowering. -/
def State.ledger (s : State) : Ledger where
  symbols := s.symbols
  tags := s.tags
  captures := s.captures
  scopes := s.scopes
  nextMachine := s.nextMachine
  machine := s.frame.block.id
  selector := s.frame.block.selector
  pendingJump := s.frame.pendingJump
  scopeBase := s.frame.scopeBase
  exits := s.frame.exits
  size := s.frame.block.size

namespace Ledger

/-- The tag that is made after `i` others. -/
def tagAt (L : Ledger) (i : Nat) : Tag := ⟨L.tags.size + i⟩

/-- With `n` more tags for states of the machine at hand. -/
def reserve (L : Ledger) (n : Nat) : Ledger := { L with tags := L.tags.reserve L.machine n }

/-- With a new state, which the tag stands for from now on. -/
def enter (L : Ledger) (tag : Tag) : Except LoweringError Ledger := do
  return { L with tags := ← L.tags.resolve tag ⟨L.size + 1⟩, size := L.size + 1 }

/-- With a variable as a field. -/
def capture (L : Ledger) (symbol : SymbolId) (type : TypeRef) (origin : CaptureOrigin)
    (liveness : Liveness) : Ledger :=
  { L with
    captures := L.captures.insert ⟨symbol, L.symbols.display symbol, type, liveness, origin⟩ }

/-- With a field that is dropped at the end of the innermost scope. -/
def dropAtScopeEnd (L : Ledger) (symbol : SymbolId) : Ledger :=
  match L.scopes with
  | scope :: scopes => { L with scopes := (symbol :: scope) :: scopes }
  | [] => L

/-- With a field that is dropped at the end of the innermost scope if it holds a reference. -/
def dropIfCleared (L : Ledger) (ctx : Context) (symbol : SymbolId) (type : TypeRef) : Ledger :=
  if livenessOf ctx type = .clearedAtScopeEnd then L.dropAtScopeEnd symbol else L

/-- With a declared variable as a field. -/
def captureLocal (L : Ledger) (ctx : Context) (symbol : SymbolId) (type : TypeRef) : Ledger :=
  (L.capture symbol type .localVar (livenessOf ctx type)).dropIfCleared ctx symbol type

/-- The next new variable. -/
def nextSymbol (L : Ledger) : SymbolId := ⟨L.symbols.size⟩

/-- With a new variable. -/
def newSymbol (L : Ledger) (name : String) (type : TypeRef) : Ledger :=
  { L with symbols := (L.symbols.declare name type .synthetic).2 }

/-- With a new variable as a field. -/
def newField (L : Ledger) (ctx : Context) (name : String) (type : TypeRef)
    (origin : CaptureOrigin) : Ledger :=
  (L.newSymbol name type).capture L.nextSymbol type origin (livenessOf ctx type)

/-- Inside one more scope. -/
def pushScope (L : Ledger) : Ledger := { L with scopes := [] :: L.scopes }

/-- Outside the innermost scope. -/
def popScope (L : Ledger) : Ledger := { L with scopes := L.scopes.tail }

/-- Drops the fields of all scopes that a transfer to a tag leaves within the machine at hand. -/
def exitClears (L : Ledger) (ctx : Context) (tag : Tag) : List Op :=
  (L.scopes.take (L.scopes.length - max (targetDepth ctx tag) L.scopeBase)).flatten.map Op.clear

/-- The ops that transfer control to a tag. -/
def route (L : Ledger) (ctx : Context) (tag : Tag) : Except LoweringError (List Op × Ledger) :=
  if L.tags.owner tag = L.machine then
    .ok (L.exitClears ctx tag ++ [if tag = .finished then .finish else .jump tag], L)
  else
    match L.pendingJump with
    | none => .error (.defect (.foreignTag tag))
    | some field =>
      .ok (L.exitClears ctx tag ++ [.assign field (.int (Int64.ofNat tag.index)), .finish],
        { L with exits := if L.exits.contains tag then L.exits else L.exits ++ [tag] })

/-- The ops that go to one of the tags if it waits in the field. -/
def routeAll (L : Ledger) (ctx : Context) (field : SymbolId) :
    List Tag → Except LoweringError (List Op × Ledger)
  | [] => .ok ([], L)
  | tag :: tags => do
    let (ops, L₁) ← L.route ctx tag
    let (more, L₂) ← L₁.routeAll ctx field tags
    return (.cond (.binary .eq (.ident (L₁.symbols.ident field)) (.int (Int64.ofNat tag.index))) ops
      [] :: more, L₂)

/-! ### Guards -/

/-- The fields that a guard needs in that ledger. -/
structure GuardNames where
  /-- the selector of the nested machine -/
  selector : SymbolId
  /-- whether a handler has been entered -/
  inHandler : SymbolId
  /-- the failure that waits -/
  pending : SymbolId
  /-- the tag that waits -/
  pendingJump : SymbolId

/-- The names of the next guard. -/
def guardNames (L : Ledger) : GuardNames where
  selector := ⟨L.symbols.size⟩
  inHandler := ⟨L.symbols.size + 1⟩
  pending := ⟨L.symbols.size + 2⟩
  pendingJump := ⟨L.symbols.size + 3⟩

/-- The ops that reset a guard before it is entered. -/
def GuardNames.reset (g : GuardNames) (resources : List SymbolId) : List Op :=
  [.assign g.selector (.int 1), .assign g.inHandler (.bool false), .assign g.pending .null,
    .assign g.pendingJump (.int (-1))] ++ resources.map fun x => .assign x .null

/-- With resources as fields. -/
def captureResources (L : Ledger) : List (SymbolId × TypeRef) → Ledger
  | [] => L
  | (x, type) :: rest => (L.capture x type .localVar .retained).captureResources rest

/-- With the fields of a guard and its resources. -/
def declareGuard (L : Ledger) (ctx : Context) (resources : List (SymbolId × TypeRef)) : Ledger :=
  let L₁ := { L with nextMachine := L.nextMachine + 1 }
  let L₂ := L₁.newField ctx "selector" .int .selector
  let L₃ := L₂.newField ctx "handling" .boolean .synthetic
  let L₄ := (L₃.newSymbol "pending" .throwable).capture L₃.nextSymbol .throwable
      .synthetic .retained
  let L₅ := L₄.newField ctx "pendingJump" .int .synthetic
  L₅.captureResources resources

/-- Inside a nested machine of which nothing is built yet. -/
def nest (L : Ledger) (id : MachineId) (g : GuardNames) : Ledger :=
  { L with
    machine := id, selector := g.selector, pendingJump := some g.pendingJump,
    scopeBase := L.scopes.length, exits := [], size := 1 }

/-- Back in the machine of `outer`, with all that was learned inside a nested one. -/
def unnest (L outer : Ledger) : Ledger :=
  { L with
    machine := outer.machine, selector := outer.selector, pendingJump := outer.pendingJump,
    scopeBase := outer.scopeBase, exits := outer.exits, size := outer.size }

end Ledger

/-- States numbered from `n`. -/
def numbered (n : Nat) : List (List Op) → List MachineState
  | [] => []
  | ops :: rest => .mk ⟨n⟩ ops :: numbered (n + 1) rest

/-- The machine whose states are all of that code. -/
def Code.machine (c : Code) (id : MachineId) (selector : SymbolId) : Machine :=
  .mk id selector (numbered 1 (c.ops :: c.states))

/-- The op of a guard that runs that code. -/
abbrev Ledger.GuardNames.op (g : GuardNames) (m : MachineId) (xs : List SymbolId)
    (hs : List Handler) (c : Code) : Op :=
  .guarded (c.machine m g.selector) ⟨xs, hs, g.inHandler, g.pending, g.pendingJump⟩

/-! ## Loops -/

namespace Part.LoopShape

/-- The number of tags that a loop takes: one for its updates, if it has any. -/
def tagCount (shape : LoopShape) : Nat := if shape.update.isEmpty then 3 else 4

/-- Where a round goes on after its body: the tag of the updates, or else that of the test. -/
def again (shape : LoopShape) (L : Ledger) : Tag :=
  if shape.update.isEmpty then L.tagAt 1 else L.tagAt 3

/-- Where a loop starts. -/
def entry (shape : LoopShape) (L : Ledger) : Tag :=
  if shape.testFirst then L.tagAt 1 else L.tagAt 0

/-- The ops of the state that tests. -/
def testOps (shape : LoopShape) (L : Ledger) : List Op :=
  match shape.test with
  | some test => [.cond test [.jump (L.tagAt 0)] [], .jump (L.tagAt 2)]
  | none => [.jump (L.tagAt 0)]

/-- The ops of the state that updates. -/
def updateOps (shape : LoopShape) (loc : Location) (L : Ledger) : List Op :=
  shape.update.map (fun e => .plain (.expr e loc)) ++ [.jump (L.tagAt 1)]

/-- The states behind the body: update, test, and the state behind the loop. -/
def tail (shape : LoopShape) (loc : Location) (L : Ledger) : List (List Op) :=
  (if shape.update.isEmpty then [] else [shape.updateOps loc L]) ++ [shape.testOps L, []]

/-- The tags of the states behind the body. -/
def tailTags (shape : LoopShape) (L : Ledger) : List Tag :=
  (if shape.update.isEmpty then [] else [L.tagAt 3]) ++ [L.tagAt 1, L.tagAt 2]

/-- What a loop is as a target of jumps. -/
def control (shape : LoopShape) (L : Ledger) : Control :=
  ⟨.loop, shape.label, L.tagAt 2, some (shape.again L), L.scopes.length⟩

end Part.LoopShape

/-- The ledger with a new state for each of the tags. -/
def Ledger.enterAll (L : Ledger) : List Tag → Except LoweringError Ledger
  | [] => .ok L
  | tag :: tags => do (← L.enter tag).enterAll tags

/-! ## Switches -/

/-- The tags of the cases of a switch. -/
def Ledger.caseTags (L : Ledger) (n : Nat) : List Tag := (List.range n).map fun i => L.tagAt (i + 1)

/-- The arms of a switch op for cases and their tags. -/
def armsOf (cases : List (SwitchCase × Tag)) : List SwitchArm :=
  cases.map fun (c, tag) => ⟨c.labels, c.isDefault, tag⟩

/-- The ops that choose a case. -/
def chooseOps (selector : Expr) (arms : List SwitchArm) (endTag : Tag) : List Op :=
  .switch selector arms :: if arms.any SwitchArm.isDefault then [] else [.jump endTag]

/-! ## Phrases -/

/-- What is lowered in one go. -/
inductive Phrase where
  /-- a statement -/
  | stmt (s : Stmt)
  /-- statements one after the other -/
  | stmts (ss : List Stmt)
  /-- something in a scope of its own -/
  | scope (p : Phrase)
  /-- a branch that may be missing -/
  | branch (s : Option Stmt)
  /-- a loop with the label that it carries -/
  | head (label : Option String) (s : Stmt)
  /-- the start of a counting loop and the loop -/
  | counting (label : Option String) (init : List Stmt) (test : Option Expr) (update : List Expr)
      (loc : Location) (body : Stmt)
  /-- the handle of a loop over an iterable and the loop -/
  | each (label : Option String) (var : LocalDecl) (iterable : Expr) (loc : Location) (body : Stmt)
  /-- a loop of that shape -/
  | loop (shape : Part.LoopShape) (loc : Location) (body : Stmt)
  /-- the choice of a switch and its cases -/
  | choice (selector : Expr) (cases : List SwitchCase)
  /-- cases with their tags, the last of which goes on to `endTag` -/
  | cases (endTag : Tag) (cs : List (SwitchCase × Tag))
  /-- first values of resources and the body behind them -/
  | opening (resources : List (SymbolId × Option Expr)) (body : List Stmt)
  /-- a handler whose variable is a field -/
  | handler (param : SymbolId) (types : List TypeRef) (body : List Stmt)
  /-- handlers, as those of a guard -/
  | handlers (cs : List CatchClause) (hs : List Handler)
  /-- what is inside a guard, with the handlers -/
  | guarded (resources : List (SymbolId × Option Expr)) (body : List Stmt) (cs : List CatchClause)
    (hs : List Handler)
  /-- final code that may be missing -/
  | final (body : Option (List Stmt))

/-- A marker is a call with its argument. -/
theorem call_of_asMarker? {m : Markers} {e arg : Expr} {kind : MarkerKind}
    (h : e.asMarker? m = some (kind, arg)) : ∃ callee, e = .call callee [arg] := by
  unfold Expr.asMarker? at h
  split at h
  · next callee a =>
    refine ⟨callee, ?_⟩
    split at h
    · cases h
      rfl
    · split at h <;> cases h
      rfl
  · cases h

/-- No marker is applied inside the expression. -/
def NoMarker (ctx : Context) (e : Expr) : Prop := e.findMarker? ctx.markers = none

/-- The ops for the first values of resources. -/
def initOps (resources : List (SymbolId × Option Expr)) : List Op :=
  resources.flatMap fun (x, init) => init.toList.map (Op.assign x)

/-- What ends final code: failures and transfers that wait are passed on, unless control cannot
reach the end. -/
def settleOps (L : Ledger) (ctx : Context) (cur : List Op) (g : Ledger.GuardNames)
    (exits : List Tag) : Except LoweringError (List Op × Ledger) :=
  if endsTerminal cur then .ok ([], L)
  else do
    let (ops, L₁) ← L.routeAll ctx g.pendingJump exits
    return (.rethrow g.pending :: ops, L₁)

/-! ## The rules -/

/-- `Made ctx L cur ph code L'`: where the ops `cur` stand at the cursor and the ledger is `L`, the
code of the phrase is `code`, and the ledger behind it is `L'`. -/
inductive Made : Context → Ledger → List Op → Phrase → Code → Ledger → Prop where
  /-- a statement that stays in its state is kept -/
  | plain {ctx L cur s} (hplain : s.needsLowering ctx.markers = false)
      (hdecl : ∀ d loc, s ≠ .declare d loc) : Made ctx L cur (.stmt s) (.now [.plain s]) L
  | declare {ctx L cur d loc x} (hx : d.name.symbol = some x)
    (hinit : ∀ e, d.init = some e → NoMarker ctx e) :
      Made ctx L cur (.stmt (.declare d loc)) (.now (d.init.toList.map (Op.assign x)))
        (L.captureLocal ctx x d.type)
  | emit {ctx L cur e arg loc L'} (he : e.asMarker? ctx.markers = some (.emit, arg))
      (harg : NoMarker ctx arg) (henter : (L.reserve 1).enter (L.tagAt 0) = .ok L') :
      Made ctx L cur (.stmt (.expr e loc)) (.now [.setState (L.tagAt 0), .yield arg] ++ .opened) L'
  | emitAll {ctx L cur e arg loc type x L₁ L'}
      (he : e.asMarker? ctx.markers = some (.emitAll, arg)) (harg : NoMarker ctx arg)
      (htype : type = TypeRef.iteratorOf ctx.elementType)
      (hL₁ : L₁ = L.newField ctx "delegate" type .synthetic)
      (hx : x = L₁.symbols.ident L.nextSymbol)
      (henter : (L₁.reserve 1).enter (L.tagAt 0) = .ok L') :
      Made ctx L cur (.stmt (.expr e loc))
        (.now [.assign L.nextSymbol arg, .jump (L.tagAt 0)] ++ .opened ++
          .now (.cond (Part.callOn x "hasNext") [.yield (Part.callOn x "next")] [] ::
            if livenessOf ctx type = .clearedAtScopeEnd then [.clear L.nextSymbol] else [])) L'
  | block {ctx L cur body loc code L'} (hneeds : (Stmt.block body loc).needsLowering ctx.markers)
      (hbody : Made ctx L cur (.scope (.stmts body)) code L') :
      Made ctx L cur (.stmt (.block body loc)) code L'
  /-- branches that stay in the state -/
  | cond {ctx L cur test yes no loc yesOps noOps L₁ L'}
      (hneeds : (Stmt.cond test yes no loc).needsLowering ctx.markers) (htest : NoMarker ctx test)
      (hyes : Made ctx L [] (.branch (some yes)) (.now yesOps) L₁)
      (hno : Made ctx L₁ [] (.branch no) (.now noOps) L') :
      Made ctx L cur (.stmt (.cond test yes no loc)) (.now [.cond test yesOps noOps]) L'
  /-- branches one of which leaves the state -/
  | split {ctx L cur test yes no loc yesCode noCode L₁ L₂ L'}
      (hneeds : (Stmt.cond test yes no loc).needsLowering ctx.markers) (htest : NoMarker ctx test)
      (hyes : Made ctx L [] (.branch (some yes)) yesCode L₁)
      (hno : Made ctx L₁ [] (.branch no) noCode L₂)
      (hsplit : yesCode.states ≠ [] ∨ noCode.states ≠ [])
      (henter : (L₂.reserve 1).enter (L₂.tagAt 0) = .ok L') :
      Made ctx L cur (.stmt (.cond test yes no loc)) (Code.sealed cur
            (.now [.cond test (yesCode.sealed [] (.jump (L₂.tagAt 0))).ops
              (noCode.sealed [] (.jump (L₂.tagAt 0))).ops])
            (.jump (L₂.tagAt 0)) ++
          ⟨[], (yesCode.sealed [] (.jump (L₂.tagAt 0))).states ++
            (noCode.sealed [] (.jump (L₂.tagAt 0))).states ++ [[]]⟩) L'
  | loopStmt {ctx L cur s code L'} (hneeds : s.needsLowering ctx.markers) (hloop : s.isLoop)
      (hhead : Made ctx L cur (.head none s) code L') : Made ctx L cur (.stmt s) code L'
  | switch {ctx L cur selector cases loc code L'}
    (hneeds : (Stmt.switch selector cases loc).needsLowering ctx.markers)
      (hselector : NoMarker ctx selector)
      (hlabels : ∀ e ∈ cases.flatMap SwitchCase.labels, NoMarker ctx e)
      (hchoice : Made ctx L cur (.scope (.choice selector cases)) code L') :
      Made ctx L cur (.stmt (.switch selector cases loc)) code L'
  | labeledLoop {ctx L cur label s loc code L'}
      (hneeds : (Stmt.labeled label s loc).needsLowering ctx.markers) (hloop : s.isLoop)
      (hnew : ∀ c ∈ ctx.controls, c.label ≠ some label)
      (hhead : Made ctx L cur (.head (some label) s) code L') :
      Made ctx L cur (.stmt (.labeled label s loc)) code L'
  | labeled {ctx L cur label s loc code L₁ L'}
      (hneeds : (Stmt.labeled label s loc).needsLowering ctx.markers) (hloop : s.isLoop = false)
      (hnew : ∀ c ∈ ctx.controls, c.label ≠ some label)
      (hbody : Made (ctx.enter ⟨.labeled, some label, L.tagAt 0, none, L.scopes.length⟩)
        (L.reserve 1) cur (.scope (.stmt s)) code L₁)
      (henter : L₁.enter (L.tagAt 0) = .ok L') :
      Made ctx L cur (.stmt (.labeled label s loc))
        (code.sealed cur (.jump (L.tagAt 0)) ++ .opened) L'
  | synchronized {ctx L cur lock body loc ops L'}
    (hneeds : (Stmt.synchronized lock body loc).needsLowering ctx.markers)
      (hlock : NoMarker ctx lock) (hmarker : Stmt.firstMarkerIn? ctx.markers body = none)
      (hbody : Made ctx L [] (.scope (.stmts body)) (.now ops) L') :
      Made ctx L cur (.stmt (.synchronized lock body loc)) (.now [.synchronized lock ops]) L'
  | ret {ctx L cur loc ops L'} (hroute : L.route ctx .finished = .ok (ops, L')) :
      Made ctx L cur (.stmt (.ret none loc)) (.now ops) L'
  | brk {ctx L cur label loc tag ops L'} (htag : ctx.breakTag? label = some tag)
      (hroute : L.route ctx tag = .ok (ops, L')) :
      Made ctx L cur (.stmt (.brk label loc)) (.now ops) L'
  | cont {ctx L cur label loc tag ops L'} (htag : ctx.continueTag? label = some tag)
      (hroute : L.route ctx tag = .ok (ops, L')) :
      Made ctx L cur (.stmt (.cont label loc)) (.now ops) L'
  /-- a nested machine for body and handlers, and the final code behind it -/
  | tryCatch {ctx L cur resources body catches final loc xs hs inner Lin L₁ L₂ L₃ code L₄ ops L₅ L'}
      (hneeds : (Stmt.tryCatch resources body catches final loc).needsLowering ctx.markers)
      (hinits : ∀ d ∈ resources, ∀ e, d.init = some e → NoMarker ctx e)
      (hxs : resources.map (fun d => d.name.symbol) = xs.map some)
      (hL₁ : L₁ = L.declareGuard ctx (xs.zip (resources.map LocalDecl.type)))
      (hguard : (L₁.reserve 3).enter (L.tagAt 0) = .ok L₂)
      (hinner : Made ctx (L₂.nest ⟨L.nextMachine⟩ L.guardNames) []
        (.guarded (xs.zip (resources.map LocalDecl.init)) body catches hs) inner Lin)
      (hfinal : (Lin.unnest L₂).enter (L.tagAt 1) = .ok L₃)
      (hcode : Made ctx L₃ [] (.final final) code L₄)
      (hsettle : settleOps L₄ ctx (code.stop []) L.guardNames Lin.exits = .ok (ops, L₅))
      (hend : L₅.enter (L.tagAt 2) = .ok L') :
      Made ctx L cur (.stmt (.tryCatch resources body catches final loc))
        (.now (L.guardNames.reset xs ++ [.jump (L.tagAt 0)]) ++ .opened ++
          .now [.guarded (inner.machine ⟨L.nextMachine⟩ L.guardNames.selector)
            ⟨xs, hs, L.guardNames.inHandler, L.guardNames.pending, L.guardNames.pendingJump⟩,
            .jump (L.tagAt 1)] ++ .opened ++
          Code.sealed [] (code ++ .now ops) (.jump (L.tagAt 2)) ++ .opened) L'
  | nil {ctx L cur} : Made ctx L cur (.stmts []) (.now []) L
  | cons {ctx L cur s ss code more L₁ L'} (hhead : Made ctx L cur (.stmt s) code L₁)
      (htail : Made ctx L₁ (code.stop cur) (.stmts ss) more L') :
      Made ctx L cur (.stmts (s :: ss)) (code ++ more) L'
  /-- what the scope declared is dropped where control reaches its end -/
  | scope {ctx L cur p code L'} (hbody : Made ctx L.pushScope cur p code L') :
    Made ctx L cur (.scope p)
        (code ++ .now (if endsTerminal (code.stop cur) then []
          else (L'.scopes.headD []).map Op.clear)) L'.popScope
  | noBranch {ctx L cur} : Made ctx L cur (.branch none) (.now []) L
  | branch {ctx L cur s code L'} (hbody : Made ctx L cur (.scope (.stmt s)) code L') :
      Made ctx L cur (.branch (some s)) code L'
  | whileLoop {ctx L cur label test body loc code L'} (htest : NoMarker ctx test)
      (hloop : Made ctx L cur (.loop ⟨label, true, some test, [], []⟩ loc body) code L') :
      Made ctx L cur (.head label (.whileLoop test body loc)) code L'
  | doWhile {ctx L cur label test body loc code L'} (htest : NoMarker ctx test)
      (hloop : Made ctx L cur (.loop ⟨label, false, some test, [], []⟩ loc body) code L') :
      Made ctx L cur (.head label (.doWhile body test loc)) code L'
  | forLoop {ctx L cur label init test update body loc code L'}
      (htest : ∀ e, test = some e → NoMarker ctx e) (hupdate : ∀ e ∈ update, NoMarker ctx e)
      (hbody : Made ctx L cur (.scope (.counting label init test update loc body)) code L') :
      Made ctx L cur (.head label (.forLoop init test update body loc)) code L'
  | forEach {ctx L cur label var iterable body loc code L'} (hiterable : NoMarker ctx iterable)
      (hbody : Made ctx L cur (.scope (.each label var iterable loc body)) code L') :
      Made ctx L cur (.head label (.forEach var iterable body loc)) code L'
  | counting {ctx L cur label init test update loc body code more L₁ L'}
    (hinit : Made ctx L cur (.stmts init) code L₁)
      (hloop : Made ctx L₁ (code.stop cur)
        (.loop ⟨label, true, test, [], update⟩ loc body) more L') :
      Made ctx L cur (.counting label init test update loc body) (code ++ more) L'
  | each {ctx L cur label var iterable loc body x type handle code L₁ L'}
      (hx : var.name.symbol = some x) (htype : type = TypeRef.iteratorOf var.type)
      (hL₁ : L₁ = ((L.newField ctx "iter" type .synthetic).dropIfCleared ctx L.nextSymbol
        type).captureLocal ctx x var.type)
      (hhandle : handle = L₁.symbols.ident L.nextSymbol)
      (hloop : Made ctx L₁ (cur ++ [.assign L.nextSymbol (.method iterable "iterator" [])])
        (.loop ⟨label, true, some (Part.callOn handle "hasNext"),
          [.assign x (Part.callOn handle "next")], []⟩ loc body) code L') :
      Made ctx L cur (.each label var iterable loc body)
        (.now [.assign L.nextSymbol (.method iterable "iterator" [])] ++ code) L'
  | loop {ctx L cur shape loc body L₁ code L₂ L'}
    (henter : (L.reserve shape.tagCount).enter (L.tagAt 0) = .ok L₁)
      (hbody : Made (ctx.enter (shape.control L)) L₁ shape.start (.scope (.stmt body)) code L₂)
      (htail : L₂.enterAll (shape.tailTags L) = .ok L') :
      Made ctx L cur (.loop shape loc body)
        (.now (Code.sealing cur (.jump (shape.entry L))) ++ .opened ++ .now shape.start ++
          code.sealed shape.start (.jump (shape.again L)) ++ ⟨[], shape.tail loc L⟩) L'
  | choice {ctx L cur selector cases tags code L₁ L'} (htags : tags = L.caseTags cases.length)
      (hcases : Made (ctx.enter ⟨.switch, none, L.tagAt 0, none, L.scopes.length⟩)
        (L.reserve (cases.length + 1))
        (cur ++ chooseOps selector (armsOf (cases.zip tags)) (L.tagAt 0))
        (.cases (L.tagAt 0) (cases.zip tags)) code L₁)
      (henter : L₁.enter (L.tagAt 0) = .ok L') :
      Made ctx L cur (.choice selector cases)
        (.now (chooseOps selector (armsOf (cases.zip tags)) (L.tagAt 0)) ++ code ++ .opened) L'
  | noCases {ctx L cur endTag} : Made ctx L cur (.cases endTag []) (.now []) L
  | case {ctx L cur endTag labels isDefault body tag rest code more L₁ L₂ L'}
      (henter : L.enter tag = .ok L₁) (hbody : Made ctx L₁ [] (.stmts body) code L₂)
      (hrest : Made ctx L₂
        ((code.sealed [] (.jump ((rest.head?.map Prod.snd).getD endTag))).stop [])
        (.cases endTag rest)
        more L') :
      Made ctx L cur (.cases endTag ((.mk labels isDefault body, tag) :: rest))
        (.opened ++ code.sealed [] (.jump ((rest.head?.map Prod.snd).getD endTag)) ++ more) L'
  | opening {ctx L cur resources body code L'}
      (hbody : Made ctx L (cur ++ initOps resources) (.scope (.stmts body)) code L') :
      Made ctx L cur (.opening resources body) (.now (initOps resources) ++ code) L'
  | handler {ctx L cur param types body code L'}
      (hbody : Made ctx (L.captureLocal ctx param (CatchClause.paramTypeOf types)) cur
        (.stmts body) code L') :
      Made ctx L cur (.handler param types body) code L'
  | noHandlers {ctx L cur} : Made ctx L cur (.handlers [] []) (.now []) L
  | handlers {ctx L cur param x types body cs hs code more L₁ L₂ L'}
      (hx : param.symbol = some x) (henter : (L.reserve 1).enter (L.tagAt 0) = .ok L₁)
      (hbody : Made ctx L₁ [] (.scope (.handler x types body)) code L₂)
      (hrest : Made ctx L₂ ((code.sealed [] .finish).stop []) (.handlers cs hs) more L') :
      Made ctx L cur (.handlers (.mk param types body :: cs) (⟨x, types, L.tagAt 0⟩ :: hs))
        (.opened ++ code.sealed [] .finish ++ more) L'
  | guarded {ctx L cur resources body cs hs code more L₁ L'}
      (hbody : Made ctx L cur (.scope (.opening resources body)) code L₁)
      (hhandlers : Made ctx L₁ ((code.sealed cur .finish).stop cur) (.handlers cs hs) more L') :
      Made ctx L cur (.guarded resources body cs hs) (code.sealed cur .finish ++ more) L'
  | noFinal {ctx L cur} : Made ctx L cur (.final none) (.now []) L
  | final {ctx L cur body code L'} (hbody : Made ctx L cur (.scope (.stmts body)) code L') :
      Made ctx L cur (.final (some body)) code L'

end Lowering

end Resumable
