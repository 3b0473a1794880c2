import Resumable.Proofs.Ledger

/-!
# Lowering without cursors

What lowering makes of a statement depends on the ops at its cursor and on the ledger only, and so
does whether it fails. A sketch is this dependence as a function.

* `Sketch` has one operation for each construct, in the order of the steps of lowering;
* `Stmt.sketch` ties them together by recursion on the statement, as lowering does;
* `sketch_made`: what a sketch makes follows the rules of `Made`.
-/

namespace Resumable

open List

namespace Lowering

/-- Both parts of a computation that ends well do. -/
theorem exists_of_bind_ok {ε α β : Type} {x : Except ε α} {f : α → Except ε β} {r : β}
    (h : (x >>= f) = .ok r) : ∃ a, x = .ok a ∧ f a = .ok r := by
  cases x with
  | error => cases h
  | ok a => exact ⟨a, rfl, h⟩

/-- What is made of the ops at a cursor and the ledger: code and the ledger behind it, or an error.
-/
abbrev Sketch := List Op → Ledger → Except LoweringError (Code × Ledger)

namespace Sketch

/-! ## Checks -/

/-- Refuses an expression that holds a marker. -/
def check (ctx : Context) (loc : Location) (e : Expr) : Except LoweringError Unit :=
  match e.findMarker? ctx.markers with
  | some marker => .error (.misplacedMarker marker loc)
  | none => .ok ()

/-- Refuses expressions that hold a marker. -/
def checkAll (ctx : Context) (loc : Location) : List Expr → Except LoweringError Unit
  | [] => .ok ()
  | e :: es => do
    check ctx loc e
    checkAll ctx loc es

/-- What is there, or else that error. -/
def need {α : Type} (found : Option α) (e : LoweringError) : Except LoweringError α :=
  match found with
  | some a => .ok a
  | none => .error e

/-- The variable of a declaration. -/
def symbolOf (x : Ident) : Except LoweringError SymbolId :=
  need x.symbol (.defect (.unresolvedDeclaration x.name))

/-- The variables of declarations. -/
def symbolsOf : List Ident → Except LoweringError (List SymbolId)
  | [] => .ok []
  | x :: xs => do return (← symbolOf x) :: (← symbolsOf xs)

/-! ## Constructs -/

/-- A sketch in a scope of its own. -/
def scope (p : Sketch) : Sketch := fun cur L => do
  let (code, L') ← p cur L.pushScope
  return (code ++ .now (if endsTerminal (code.stop cur) then []
    else (L'.scopes.headD []).map Op.clear), L'.popScope)

/-- One sketch behind the other. -/
def andThen (p q : Sketch) : Sketch := fun cur L => do
  let (code, L₁) ← p cur L
  let (more, L') ← q (code.stop cur) L₁
  return (code ++ more, L')

/-- A statement that is kept as it is unless it has to be lowered. -/
def unlessPlain (s : Stmt) (p : Context → Sketch) (ctx : Context) : Sketch := fun cur L =>
  if s.needsLowering ctx.markers then p ctx cur L else .ok (.now [.plain s], L)

def declare (d : LocalDecl) (loc : Location) (ctx : Context) : Sketch := fun _ L => do
  let x ← symbolOf d.name
  checkAll ctx loc d.init.toList
  return (.now (d.init.toList.map (Op.assign x)), L.captureLocal ctx x d.type)

def yield (arg : Expr) : Sketch := fun _ L => do
  let L' ← (L.reserve 1).enter (L.tagAt 0)
  return (.now [.setState (L.tagAt 0), .yield arg] ++ .opened, L')

/-- The ops of the state that asks an iterator again. -/
def pollOps (ctx : Context) (x : Ident) (handle : SymbolId) : List Op :=
  .cond (Part.callOn x "hasNext") [.yield (Part.callOn x "next")] [] ::
    if livenessOf ctx (TypeRef.iteratorOf ctx.elementType) = .clearedAtScopeEnd then
      [.clear handle] else []

def yieldAll (arg : Expr) (ctx : Context) : Sketch := fun _ L => do
  let L₁ := L.newField ctx "delegate" (TypeRef.iteratorOf ctx.elementType) .synthetic
  let L' ← (L₁.reserve 1).enter (L.tagAt 0)
  return (.now [.assign L.nextSymbol arg, .jump (L.tagAt 0)] ++ .opened ++
    .now (pollOps ctx (L₁.symbols.ident L.nextSymbol) L.nextSymbol), L')

/-- An expression that has to be lowered, but is no marker. -/
def misplaced (e : Expr) (loc : Location) (ctx : Context) : Sketch := fun _ _ => do
  check ctx loc e
  throw (.defect (.noMarker loc))

def expr (e : Expr) (loc : Location) (ctx : Context) : Sketch := fun cur L =>
  match e.asMarker? ctx.markers with
  | some (kind, arg) => do
    check ctx loc arg
    match kind with
    | .emit => yield arg cur L
    | .emitAll => yieldAll arg ctx cur L
  | none => unlessPlain (.expr e loc) (misplaced e loc) ctx cur L

/-- A transfer of control to a tag. -/
def route (ctx : Context) (tag : Tag) : Sketch := fun _ L => do
  let (ops, L') ← L.route ctx tag
  return (.now ops, L')

def ret (value : Option Expr) (loc : Location) (ctx : Context) : Sketch := fun cur L =>
  match value with
  | some _ => .error (.returnWithValue loc)
  | none => route ctx .finished cur L

def brk (label : Option String) (loc : Location) (ctx : Context) : Sketch := fun cur L => do
  let tag ← need (ctx.breakTag? label) (.unmatchedBreak label loc)
  route ctx tag cur L

def cont (label : Option String) (loc : Location) (ctx : Context) : Sketch := fun cur L => do
  let tag ← need (ctx.continueTag? label) (.unmatchedContinue label loc)
  route ctx tag cur L

/-- A branch in a buffer of its own, or an empty buffer. -/
def branch (p : Option (Context → Sketch)) (ctx : Context) : Sketch := fun cur L =>
  match p with
  | some p => scope (p ctx) cur L
  | none => .ok (.now [], L)

/-- The code of a choice one of whose branches leaves the state, and which goes on at the tag. -/
def splitCode (cur : List Op) (test : Expr) (yes no : Code) (tag : Tag) : Code :=
  Code.sealed cur (.now [.cond test (yes.sealed [] (.jump tag)).ops (no.sealed [] (.jump tag)).ops])
    (.jump tag) ++
    ⟨[], (yes.sealed [] (.jump tag)).states ++ (no.sealed [] (.jump tag)).states ++ [[]]⟩

def cond (test : Expr) (loc : Location) (yes : Context → Sketch) (no : Option (Context → Sketch))
    (ctx : Context) :
    Sketch := fun cur L => do
  check ctx loc test
  let (yesCode, L₁) ← scope (yes ctx) [] L
  let (noCode, L₂) ← branch no ctx [] L₁
  if yesCode.states = [] ∧ noCode.states =
    [] then return (.now [.cond test yesCode.ops noCode.ops], L₂)
  else
    let L' ← (L₂.reserve 1).enter (L₂.tagAt 0)
    return (splitCode cur test yesCode noCode (L₂.tagAt 0), L')

def loop (shape : Part.LoopShape) (loc : Location) (body : Context → Sketch) (ctx : Context) :
    Sketch := fun cur L => do
  let L₁ ← (L.reserve shape.tagCount).enter (L.tagAt 0)
  let (code, L₂) ← scope (body (ctx.enter (shape.control L))) shape.start L₁
  let L' ← L₂.enterAll (shape.tailTags L)
  return (.now (Code.sealing cur (.jump (shape.entry L))) ++ .opened ++ .now shape.start ++
    code.sealed shape.start (.jump (shape.again L)) ++ ⟨[], shape.tail loc L⟩, L')

def testLoop (label : Option String) (testFirst : Bool) (test : Expr) (loc : Location)
    (body : Context → Sketch) (ctx : Context) : Sketch := fun cur L => do
  check ctx loc test
  loop ⟨label, testFirst, some test, [], []⟩ loc body ctx cur L

def forLoop (label : Option String) (init : Context → Sketch) (test : Option Expr)
    (update : List Expr) (loc : Location) (body : Context → Sketch) (ctx : Context) : Sketch :=
  fun cur L => do
  checkAll ctx loc test.toList
  checkAll ctx loc update
  scope ((init ctx).andThen (loop ⟨label, true, test, [], update⟩ loc body ctx)) cur L

/-- The handle of a loop over an iterable and the loop. -/
def each (label : Option String) (var : LocalDecl) (x : SymbolId) (iterable : Expr) (loc : Location)
    (body : Context → Sketch) (ctx : Context) : Sketch := fun cur L => do
  let type := TypeRef.iteratorOf var.type
  let L₁ := ((L.newField ctx "iter" type .synthetic).dropIfCleared ctx L.nextSymbol
      type).captureLocal ctx x var.type
  let handle := L₁.symbols.ident L.nextSymbol
  let start : List Op := [.assign L.nextSymbol (.method iterable "iterator" [])]
  let (code, L') ← loop ⟨label, true, some (Part.callOn handle "hasNext"),
    [.assign x (Part.callOn handle "next")], []⟩ loc body ctx (cur ++ start) L₁
  return (.now start ++ code, L')

def forEach (label : Option String) (var : LocalDecl) (iterable : Expr) (loc : Location)
    (body : Context → Sketch) (ctx : Context) : Sketch := fun cur L => do
  check ctx loc iterable
  let x ← symbolOf var.name
  scope (each label var x iterable loc body ctx) cur L

/-- The states of cases, each of which goes on to the next, and the last one to `endTag`. -/
def caseStates (ctx : Context) (endTag : Tag) :
    List ((SwitchCase × (Context → Sketch)) × Tag) → Sketch
  | [] => fun _ L => .ok (.now [], L)
  | ((_, p), tag) :: rest => fun _ L => do
    let L₁ ← L.enter tag
    let (code, L₂) ← p ctx [] L₁
    let ended := code.sealed [] (.jump ((rest.head?.map Prod.snd).getD endTag))
    let (more, L') ← caseStates ctx endTag rest (ended.stop []) L₂
    return (.opened ++ ended ++ more, L')

/-- The choice of a switch and its cases. -/
def choice (selector : Expr) (cases : List (SwitchCase × (Context → Sketch))) (ctx : Context) :
    Sketch := fun cur L => do
  let tags := L.caseTags cases.length
  let choose := chooseOps selector (armsOf ((cases.map Prod.fst).zip tags)) (L.tagAt 0)
  let (code, L₁) ← caseStates (ctx.enter ⟨.switch, none, L.tagAt 0, none, L.scopes.length⟩)
      (L.tagAt 0)
    (cases.zip tags) (cur ++ choose) (L.reserve (cases.length + 1))
  let L' ← L₁.enter (L.tagAt 0)
  return (.now choose ++ code ++ .opened, L')

def switch (selector : Expr) (loc : Location) (cases : List (SwitchCase × (Context → Sketch)))
    (ctx : Context) :
    Sketch := fun cur L => do
  check ctx loc selector
  checkAll ctx loc ((cases.map Prod.fst).flatMap SwitchCase.labels)
  scope (choice selector cases ctx) cur L

/-- Refuses a label that is in force already. -/
def checkLabel (ctx : Context) (label : String) (loc : Location) : Except LoweringError Unit :=
  if ctx.controls.any fun c => c.label == some label then .error (.duplicateLabel label loc)
    else .ok ()

def labeled (label : String) (body : Context → Sketch) (ctx : Context) : Sketch := fun cur L => do
  let (code, L₁) ← scope (body (ctx.enter ⟨.labeled, some label, L.tagAt 0, none, L.scopes.length⟩))
      cur (L.reserve 1)
  let L' ← L₁.enter (L.tagAt 0)
  return (code.sealed cur (.jump (L.tagAt 0)) ++ .opened, L')

def synchronized (lock : Expr) (marker : Markers → Option (String × Location)) (loc : Location)
    (body : Context → Sketch) (ctx : Context) : Sketch := fun _ L => do
  check ctx loc lock
  match marker ctx.markers with
  | some (name, place) => .error (.illegalSuspension name place)
  | none => do
    let (code, L') ← scope (body ctx) [] L
    if code.states = [] then return (.now [.synchronized lock code.ops], L')
    else throw (.unsplittableLock loc)

/-- The states of handlers, and the handlers. -/
def handlers (ctx : Context) : List (CatchClause × (Context → Sketch)) → List Op → Ledger →
    Except LoweringError (List Handler × Code × Ledger)
  | [], _, L => .ok ([], .now [], L)
  | (c, p) :: rest, _, L => do
    let x ← symbolOf c.param
    let L₁ ← (L.reserve 1).enter (L.tagAt 0)
    let (code, L₂) ← scope
        (fun cur L => p ctx cur (L.captureLocal ctx x (CatchClause.paramTypeOf c.types))) [] L₁
    let (hs, more, L') ← handlers ctx rest ((code.sealed [] .finish).stop []) L₂
    return (⟨x, c.types, L.tagAt 0⟩ :: hs, .opened ++ code.sealed [] .finish ++ more, L')

/-- First values of resources, and a sketch behind them. -/
def opening (resources : List (SymbolId × Option Expr)) (p : Sketch) : Sketch := fun cur L => do
  let (code, L') ← p (cur ++ initOps resources) L
  return (.now (initOps resources) ++ code, L')

/-- What is inside a guard, and its handlers. -/
def guardedBody (ctx : Context) (resources : List (SymbolId × Option Expr))
    (body : Context → Sketch) (catches : List (CatchClause × (Context → Sketch))) (cur : List Op)
    (L : Ledger) :
    Except LoweringError (List Handler × Code × Ledger) := do
  let (code, L₁) ← scope (opening resources (scope (body ctx))) cur L
  let (hs, more, L') ← handlers ctx catches ((code.sealed cur .finish).stop cur) L₁
  return (hs, code.sealed cur .finish ++ more, L')

def tryCatch (resources : List LocalDecl) (body : Context → Sketch)
    (catches : List (CatchClause × (Context → Sketch))) (final : Option (Context → Sketch))
    (loc : Location) (ctx : Context) : Sketch := fun _ L => do
  checkAll ctx loc (resources.flatMap fun d => d.init.toList)
  let xs ← symbolsOf (resources.map LocalDecl.name)
  let L₁ := L.declareGuard ctx (xs.zip (resources.map LocalDecl.type))
  let L₂ ← (L₁.reserve 3).enter (L.tagAt 0)
  let (hs, inner, Lin) ← guardedBody ctx (xs.zip (resources.map LocalDecl.init)) body catches []
    (L₂.nest ⟨L.nextMachine⟩ L.guardNames)
  let L₃ ← (Lin.unnest L₂).enter (L.tagAt 1)
  let (code, L₄) ← branch final ctx [] L₃
  let (ops, L₅) ← settleOps L₄ ctx (code.stop []) L.guardNames Lin.exits
  let L' ← L₅.enter (L.tagAt 2)
  return (.now (L.guardNames.reset xs ++ [.jump (L.tagAt 0)]) ++ .opened ++
    .now [.guarded (inner.machine ⟨L.nextMachine⟩ L.guardNames.selector)
      ⟨xs, hs, L.guardNames.inHandler, L.guardNames.pending, L.guardNames.pendingJump⟩,
      .jump (L.tagAt 1)] ++ .opened ++
    Code.sealed [] (code ++ .now ops) (.jump (L.tagAt 2)) ++ .opened, L')

end Sketch

end Lowering

/-! ## Statements -/

open Lowering (Sketch Context)

mutual

/-- The sketch of a statement. -/
def Stmt.sketch : Stmt → Context → Sketch
  | .empty loc => Sketch.unlessPlain (.empty loc) fun _ _ L => .ok (.now [], L)
  | .expr e loc => Sketch.expr e loc
  | .declare d loc => Sketch.declare d loc
  | .block body loc =>
    Sketch.unlessPlain (.block body loc) fun ctx => Sketch.scope (sketchAll body ctx)
  | .cond test yes no loc =>
    Sketch.unlessPlain (.cond test yes no loc) (Sketch.cond test loc yes.sketch (sketchElse no))
  | .whileLoop test body loc =>
    Sketch.unlessPlain (.whileLoop test body loc) (Sketch.testLoop none true test loc body.sketch)
  | .doWhile body test loc =>
    Sketch.unlessPlain (.doWhile body test loc) (Sketch.testLoop none false test loc body.sketch)
  | .forLoop init test update body loc =>
    Sketch.unlessPlain (.forLoop init test update body loc)
      (Sketch.forLoop none (sketchAll init) test update loc body.sketch)
  | .forEach var iterable body loc =>
    Sketch.unlessPlain (.forEach var iterable body loc)
      (Sketch.forEach none var iterable loc body.sketch)
  | .switch selector cases loc =>
    Sketch.unlessPlain (.switch selector cases loc) (Sketch.switch selector loc (sketchCases cases))
  | .tryCatch resources body catches final loc =>
    Sketch.unlessPlain (.tryCatch resources body catches final loc)
      (Sketch.tryCatch resources (sketchAll body) (sketchCatches catches) (sketchFinal final) loc)
  | .labeled label body loc =>
    Sketch.unlessPlain (.labeled label body loc) fun ctx cur L => do
      Sketch.checkLabel ctx label loc
      match body with
      | .whileLoop test b place => Sketch.testLoop (some label) true test place b.sketch ctx cur L
      | .doWhile b test place => Sketch.testLoop (some label) false test place b.sketch ctx cur L
      | .forLoop init test update b place =>
        Sketch.forLoop (some label) (sketchAll init) test update place b.sketch ctx cur L
      | .forEach var iterable b place =>
        Sketch.forEach (some label) var iterable place b.sketch ctx cur L
      | s => Sketch.labeled label s.sketch ctx cur L
  | .synchronized lock body loc =>
    Sketch.unlessPlain (.synchronized lock body loc)
      (Sketch.synchronized lock (fun m => Stmt.firstMarkerIn? m body) loc (sketchAll body))
  | .ret value loc => Sketch.ret value loc
  | .brk label loc => Sketch.brk label loc
  | .cont label loc => Sketch.cont label loc
  | .raise e loc => Sketch.unlessPlain (.raise e loc) (Sketch.misplaced e loc)

/-- The sketch of statements one after the other. -/
def sketchAll : List Stmt → Context → Sketch
  | [] => fun _ _ L => .ok (.now [], L)
  | s :: ss => fun ctx => (s.sketch ctx).andThen (sketchAll ss ctx)

/-- The sketch of a branch that may be missing. -/
def sketchElse : Option Stmt → Option (Context → Sketch)
  | some s => some s.sketch
  | none => none

/-- The sketch of final code that may be missing. -/
def sketchFinal : Option (List Stmt) → Option (Context → Sketch)
  | some body => some (sketchAll body)
  | none => none

/-- Cases with the sketches of their statements. -/
def sketchCases : List SwitchCase → List (SwitchCase × (Context → Sketch))
  | [] => []
  | .mk labels isDefault body :: cs => (.mk labels isDefault body, sketchAll body) :: sketchCases cs

/-- Handlers with the sketches of their statements. -/
def sketchCatches : List CatchClause → List (CatchClause × (Context → Sketch))
  | [] => []
  | .mk param types body :: cs => (.mk param types body, sketchAll body) :: sketchCatches cs

end

/-- The sketch of a loop that has to be lowered, with the label it may carry. -/
def Stmt.rounds (label : Option String) : Stmt → Context → Sketch
  | .whileLoop test body loc => Sketch.testLoop label true test loc body.sketch
  | .doWhile body test loc => Sketch.testLoop label false test loc body.sketch
  | .forLoop init test update body loc =>
    Sketch.forLoop label (sketchAll init) test update loc body.sketch
  | .forEach var iterable body loc => Sketch.forEach label var iterable loc body.sketch
  | s => fun _ _ _ => .error (.defect (.notALoop s.location))

theorem Stmt.sketch_loop {st : Stmt} (h : st.isLoop) :
    st.sketch = Sketch.unlessPlain st (st.rounds none) := by
  cases st <;> first | rfl | cases h

/-- A labelled loop. -/
theorem Stmt.sketch_labeledLoop {label : String} {body : Stmt} {loc : Location} (h : body.isLoop) :
    (Stmt.labeled label body loc).sketch = Sketch.unlessPlain
    (.labeled label body loc) fun ctx cur L =>
      Sketch.checkLabel ctx label loc >>= fun _ => body.rounds (some label) ctx cur L := by
  cases body <;> first | rfl | cases h

/-- A labelled statement that is no loop. -/
theorem Stmt.sketch_labeled {label : String} {body : Stmt} {loc : Location}
    (h : body.isLoop = false) :
    (Stmt.labeled label body loc).sketch = Sketch.unlessPlain
    (.labeled label body loc) fun ctx cur L =>
      Sketch.checkLabel ctx label loc >>= fun _ => Sketch.labeled label body.sketch ctx cur L := by
  cases body <;> first | rfl | cases h

namespace Lowering

/-! ## The rules -/

/-- What the sketch makes in that context follows the rules for the phrase. -/
def Makes (ctx : Context) (p : Sketch) (ph : Phrase) : Prop :=
  ∀ ⦃cur L code L'⦄, p cur L = .ok (code, L') → Made ctx L cur ph code L'

section Rules

variable {code : Code} {L L' : Ledger} {resources : List (SymbolId × Option Expr)}
  {catches : List CatchClause}
variable {ctx : Context} {loc : Location}

variable {a : Unit} {body : List Stmt}

theorem check_ok {e : Expr} (h : Sketch.check ctx loc e = .ok a) : NoMarker ctx e := by
  unfold Sketch.check at h
  split at h
  · cases h
  · assumption

theorem checkAll_ok {es : List Expr} (h : Sketch.checkAll ctx loc es = .ok a) :
    ∀ e ∈ es, NoMarker ctx e := by
  induction es with
  | nil => exact nofun
  | cons e es ih =>
    obtain ⟨_, hhead, htail⟩ := exists_of_bind_ok h
    exact forall_mem_cons.mpr ⟨check_ok hhead, ih htail⟩

/-- What is needed was found. -/
theorem need_ok {α : Type} {found : Option α} {e : LoweringError} {a : α}
    (h : Sketch.need found e = .ok a) : found = some a := by
  cases found with
  | none => cases h
  | some =>
    cases h
    rfl

theorem symbolsOf_ok {xs : List Ident} {ids : List SymbolId} (h : Sketch.symbolsOf xs = .ok ids) :
    xs.map Ident.symbol = ids.map some := by
  induction xs generalizing ids with
  | nil =>
    cases h
    rfl
  | cons x xs ih =>
    obtain ⟨id, hhead, h⟩ := exists_of_bind_ok h
    obtain ⟨rest, htail, h⟩ := exists_of_bind_ok h
    cases h
    rw [map_cons, map_cons, need_ok hhead, ih htail]

/-- A label that passes is not in force already. -/
theorem checkLabel_ok {label : String} (h : Sketch.checkLabel ctx label loc = .ok a) :
    ∀ c ∈ ctx.controls, c.label ≠ some label := by
  unfold Sketch.checkLabel at h
  split at h
  · cases h
  · next hlabel => exact fun c hc heq => hlabel (any_eq_true.mpr ⟨c, hc, by simp [heq]⟩)

theorem scope_made {p : Sketch} {ph : Phrase} (h : Makes ctx p ph) :
    Makes ctx (Sketch.scope p) (.scope ph) := by
  intro cur L code L' hrun
  obtain ⟨⟨code, L₁⟩, hbody, hrun⟩ := exists_of_bind_ok hrun
  cases hrun
  exact .scope (h hbody)

/-- A statement that needs no lowering is one instruction. -/
theorem unlessPlain_made {s : Stmt} {p : Context → Sketch}
    (h : s.needsLowering ctx.markers → Makes ctx (p ctx) (.stmt s))
    (hdecl : ∀ d loc, s ≠ .declare d loc := by simp) :
    Makes ctx (Sketch.unlessPlain s p ctx) (.stmt s) := by
  intro cur L code L' hrun
  unfold Sketch.unlessPlain at hrun
  split at hrun
  · next hneeds => exact h hneeds hrun
  · next hneeds =>
    cases hrun
    exact .plain (by simpa using hneeds) hdecl

theorem declare_made (d : LocalDecl) :
    Makes ctx (Sketch.declare d loc ctx) (.stmt (.declare d loc)) := by
  intro cur L code L' hrun
  obtain ⟨x, hx, hrun⟩ := exists_of_bind_ok hrun
  obtain ⟨_, hinit, hrun⟩ := exists_of_bind_ok hrun
  cases hrun
  exact .declare (need_ok hx) fun e he => checkAll_ok hinit e (Option.mem_toList.mpr he)

/-- Of an expression that is no marker itself, nothing is made. -/
theorem misplaced_made {e : Expr} {ph : Phrase} : Makes ctx (Sketch.misplaced e loc ctx) ph := by
  intro cur L code L' hrun
  obtain ⟨_, -, hrun⟩ := exists_of_bind_ok hrun
  cases hrun

theorem expr_made (e : Expr) : Makes ctx (Sketch.expr e loc ctx) (.stmt (.expr e loc)) := by
  intro cur L code L' hrun
  unfold Sketch.expr at hrun
  cases hmarker : e.asMarker? ctx.markers with
  | none =>
    rw [hmarker] at hrun
    exact unlessPlain_made (fun _ => misplaced_made) (by simp) hrun
  | some marker =>
    obtain ⟨kind, arg⟩ := marker
    rw [hmarker] at hrun
    obtain ⟨_, hcheck, hrun⟩ := exists_of_bind_ok hrun
    cases kind with
    | emit =>
      obtain ⟨L₁, henter, hrun⟩ := exists_of_bind_ok hrun
      cases hrun
      exact .emit hmarker (check_ok hcheck) henter
    | emitAll =>
      obtain ⟨L₁, henter, hrun⟩ := exists_of_bind_ok hrun
      cases hrun
      exact .emitAll hmarker (check_ok hcheck) rfl rfl rfl henter

theorem route_ok {tag : Tag} (cur : List Op) (h : Sketch.route ctx tag cur L = .ok (code, L')) :
    ∃ ops, code = .now ops ∧ L.route ctx tag = .ok (ops, L') := by
  obtain ⟨⟨ops, L₁⟩, hroute, h⟩ := exists_of_bind_ok h
  cases h
  exact ⟨ops, rfl, hroute⟩

theorem ret_made (value : Option Expr) :
    Makes ctx (Sketch.ret value loc ctx) (.stmt (.ret value loc)) := by
  intro cur L code L' hrun
  cases value with
  | some => cases hrun
  | none =>
    obtain ⟨ops, rfl, hroute⟩ := route_ok cur hrun
    exact .ret hroute

theorem brk_made (label : Option String) :
    Makes ctx (Sketch.brk label loc ctx) (.stmt (.brk label loc)) := by
  intro cur L code L' hrun
  obtain ⟨tag, htag, hrun⟩ := exists_of_bind_ok hrun
  obtain ⟨ops, rfl, hroute⟩ := route_ok cur hrun
  exact .brk (need_ok htag) hroute

theorem cont_made (label : Option String) :
    Makes ctx (Sketch.cont label loc ctx) (.stmt (.cont label loc)) := by
  intro cur L code L' hrun
  obtain ⟨tag, htag, hrun⟩ := exists_of_bind_ok hrun
  obtain ⟨ops, rfl, hroute⟩ := route_ok cur hrun
  exact .cont (need_ok htag) hroute

theorem cond_made {test : Expr} {yes : Context → Sketch} {no : Option (Context → Sketch)}
    {yesStmt : Stmt} {noStmt : Option Stmt}
    (hneeds : (Stmt.cond test yesStmt noStmt loc).needsLowering ctx.markers)
    (hyes : Makes ctx (yes ctx) (.stmt yesStmt))
    (hno : Makes ctx (Sketch.branch no ctx) (.branch noStmt)) :
    Makes ctx (Sketch.cond test loc yes no ctx) (.stmt (.cond test yesStmt noStmt loc)) := by
  intro cur L code L' hrun
  obtain ⟨_, htest, hrun⟩ := exists_of_bind_ok hrun
  obtain ⟨⟨yesCode, L₁⟩, hyesRun, hrun⟩ := exists_of_bind_ok hrun
  obtain ⟨⟨noCode, L₂⟩, hnoRun, hrun⟩ := exists_of_bind_ok hrun
  have hY := scope_made hyes hyesRun
  have hN := hno hnoRun
  dsimp only at hrun
  split at hrun
  · next hstay =>
    obtain ⟨yesOps, _⟩ := yesCode
    obtain ⟨noOps, _⟩ := noCode
    obtain ⟨rfl, rfl⟩ := hstay
    cases hrun
    exact .cond hneeds (check_ok htest) (.branch hY) hN
  · next hleave =>
    obtain ⟨L₃, henter, hrun⟩ := exists_of_bind_ok hrun
    cases hrun
    exact .split hneeds (check_ok htest) (.branch hY) hN
      (Decidable.not_and_iff_or_not.mp hleave) henter

section Loops

variable {body : Context → Sketch} {st : Stmt} (hbody : ∀ ctx, Makes ctx (body ctx) (.stmt st))

include hbody

theorem loop_made (shape : Part.LoopShape) :
    Makes ctx (Sketch.loop shape loc body ctx) (.loop shape loc st) := by
  intro cur L code L' hrun
  obtain ⟨L₁, henter, hrun⟩ := exists_of_bind_ok hrun
  obtain ⟨⟨code, L₂⟩, hrunBody, hrun⟩ := exists_of_bind_ok hrun
  obtain ⟨L₃, htail, hrun⟩ := exists_of_bind_ok hrun
  cases hrun
  exact .loop henter (scope_made (hbody _) hrunBody) htail

theorem whileLoop_made (label : Option String) (test : Expr) :
    Makes ctx (Sketch.testLoop label true test loc body ctx)
      (.head label (.whileLoop test st loc)) := by
  intro cur L code L' hrun
  obtain ⟨_, htest, hrun⟩ := exists_of_bind_ok hrun
  exact .whileLoop (check_ok htest) (loop_made hbody _ hrun)

theorem doWhile_made (label : Option String) (test : Expr) :
    Makes ctx (Sketch.testLoop label false test loc body ctx)
      (.head label (.doWhile st test loc)) := by
  intro cur L code L' hrun
  obtain ⟨_, htest, hrun⟩ := exists_of_bind_ok hrun
  exact .doWhile (check_ok htest) (loop_made hbody _ hrun)

theorem forLoop_made {init : Context → Sketch} {inits : List Stmt}
    (hinit : ∀ ctx, Makes ctx (init ctx) (.stmts inits)) (label : Option String)
    (test : Option Expr) (update : List Expr) :
    Makes ctx (Sketch.forLoop label init test update loc body ctx)
      (.head label (.forLoop inits test update st loc)) := by
  intro cur L code L' hrun
  obtain ⟨_, htest, hrun⟩ := exists_of_bind_ok hrun
  obtain ⟨_, hupdate, hrun⟩ := exists_of_bind_ok hrun
  refine .forLoop (fun e he => checkAll_ok htest e (Option.mem_toList.mpr he)) (checkAll_ok hupdate)
    (scope_made ?_ hrun)
  intro cur L code L' hrun
  obtain ⟨⟨code, L₁⟩, hrunInit, hrun⟩ := exists_of_bind_ok hrun
  obtain ⟨⟨more, L₂⟩, hrunLoop, hrun⟩ := exists_of_bind_ok hrun
  cases hrun
  exact .counting (hinit ctx hrunInit) (loop_made hbody _ hrunLoop)

theorem forEach_made (label : Option String) (var : LocalDecl) (iterable : Expr) :
    Makes ctx (Sketch.forEach label var iterable loc body ctx)
      (.head label (.forEach var iterable st loc)) := by
  intro cur L code L' hrun
  obtain ⟨_, hiterable, hrun⟩ := exists_of_bind_ok hrun
  obtain ⟨x, hx, hrun⟩ := exists_of_bind_ok hrun
  refine .forEach (check_ok hiterable) (scope_made ?_ hrun)
  intro cur L code L' hrun
  obtain ⟨⟨code, L₁⟩, hrunLoop, hrun⟩ := exists_of_bind_ok hrun
  cases hrun
  exact .each (need_ok hx) rfl rfl rfl (loop_made hbody _ hrunLoop)

theorem labeled_made {label : String}
    (hneeds : (Stmt.labeled label st loc).needsLowering ctx.markers) (hloop : st.isLoop = false)
    (hnew : ∀ c ∈ ctx.controls, c.label ≠ some label) :
    Makes ctx (Sketch.labeled label body ctx) (.stmt (.labeled label st loc)) := by
  intro cur L code L' hrun
  obtain ⟨⟨code, L₁⟩, hrunBody, hrun⟩ := exists_of_bind_ok hrun
  obtain ⟨L₂, henter, hrun⟩ := exists_of_bind_ok hrun
  cases hrun
  exact .labeled hneeds hloop hnew (scope_made (hbody _) hrunBody) henter

end Loops

theorem synchronized_made {lock : Expr} {body : Context → Sketch} {stmts : List Stmt}
    (hneeds : (Stmt.synchronized lock stmts loc).needsLowering ctx.markers)
    (hbody : Makes ctx (body ctx) (.stmts stmts)) :
    Makes ctx (Sketch.synchronized lock (fun m => Stmt.firstMarkerIn? m stmts) loc body ctx)
      (.stmt (.synchronized lock stmts loc)) := by
  intro cur L code L' hrun
  obtain ⟨_, hlock, hrun⟩ := exists_of_bind_ok hrun
  dsimp only at hrun
  split at hrun
  · cases hrun
  · next hmarker =>
    obtain ⟨⟨⟨ops, states⟩, L₁⟩, hrunBody, hrun⟩ := exists_of_bind_ok hrun
    dsimp only at hrun
    split at hrun
    · next hstay =>
      cases hrun
      cases hstay
      exact .synchronized hneeds (check_ok hlock) hmarker (scope_made hbody hrunBody)
    · cases hrun

theorem caseStates_made {endTag : Tag} (cases : List SwitchCase) (tags : List Tag)
    (h : ∀ c ∈ cases, Makes ctx (sketchAll c.body ctx) (.stmts c.body)) :
    Makes ctx (Sketch.caseStates ctx endTag ((sketchCases cases).zip tags))
      (.cases endTag (cases.zip tags)) := by
  induction cases generalizing tags with
  | nil =>
    intro cur L code L' hrun
    cases hrun
    exact .noCases
  | cons case cases ih =>
    obtain ⟨labels, isDefault, body⟩ := case
    intro cur L code L' hrun
    cases tags with
    | nil =>
      cases hrun
      exact .noCases
    | cons tag tags =>
      have hnext : (((sketchCases cases).zip tags).head?.map Prod.snd) =
          (cases.zip tags).head?.map Prod.snd := by
        cases cases with
        | nil => rfl
        | cons c cases =>
          obtain ⟨labels, isDefault, body⟩ := c
          cases tags <;> rfl
      rw [sketchCases, zip_cons_cons, Sketch.caseStates, hnext] at hrun
      obtain ⟨L₁, henter, hrun⟩ := exists_of_bind_ok hrun
      obtain ⟨⟨code, L₂⟩, hrunBody, hrun⟩ := exists_of_bind_ok hrun
      obtain ⟨⟨more, L₃⟩, hrunRest, hrun⟩ := exists_of_bind_ok hrun
      cases hrun
      exact .case henter (h _ mem_cons_self hrunBody)
        (ih tags (fun c hc => h c (mem_cons_of_mem _ hc)) hrunRest)

theorem map_fst_sketchCases (cases : List SwitchCase) :
    (sketchCases cases).map Prod.fst = cases := by
  induction cases with
  | nil => rfl
  | cons c cases ih =>
    obtain ⟨labels, isDefault, body⟩ := c
    rw [sketchCases, map_cons, ih]

theorem length_sketchCases (cases : List SwitchCase) :
    (sketchCases cases).length = cases.length := by
  rw [← length_map Prod.fst, map_fst_sketchCases]

theorem switch_made {selector : Expr} {cases : List SwitchCase}
    (hneeds : (Stmt.switch selector cases loc).needsLowering ctx.markers)
    (h : ∀ ctx, ∀ c ∈ cases, Makes ctx (sketchAll c.body ctx) (.stmts c.body)) :
    Makes ctx (Sketch.switch selector loc (sketchCases cases) ctx)
      (.stmt (.switch selector cases loc)) := by
  intro cur L code L' hrun
  obtain ⟨_, hselector, hrun⟩ := exists_of_bind_ok hrun
  obtain ⟨_, hlabels, hrun⟩ := exists_of_bind_ok hrun
  have hlabels := checkAll_ok hlabels
  rw [map_fst_sketchCases] at hlabels
  refine .switch hneeds (check_ok hselector) hlabels (scope_made ?_ hrun)
  intro cur L code L' hrun
  simp only [Sketch.choice, map_fst_sketchCases, length_sketchCases] at hrun
  obtain ⟨⟨code, L₁⟩, hrunCases, hrun⟩ := exists_of_bind_ok hrun
  obtain ⟨L₂, henter, hrun⟩ := exists_of_bind_ok hrun
  cases hrun
  exact .choice rfl (caseStates_made cases _ (h _) hrunCases) henter

theorem handlers_made (catches : List CatchClause)
    (h : ∀ c ∈ catches, Makes ctx (sketchAll c.body ctx) (.stmts c.body)) {cur : List Op}
    {hs : List Handler} (hrun : Sketch.handlers ctx (sketchCatches catches) cur L = .ok (hs,
      code, L')) :
    Made ctx L cur (.handlers catches hs) code L' := by
  induction catches generalizing cur L hs code with
  | nil =>
    cases hrun
    exact .noHandlers
  | cons c catches ih =>
    obtain ⟨param, types, body⟩ := c
    obtain ⟨x, hx, hrun⟩ := exists_of_bind_ok hrun
    obtain ⟨L₁, henter, hrun⟩ := exists_of_bind_ok hrun
    obtain ⟨⟨code, L₂⟩, hrunBody, hrun⟩ := exists_of_bind_ok hrun
    obtain ⟨⟨hs, more, L₃⟩, hrunRest, hrun⟩ := exists_of_bind_ok hrun
    cases hrun
    refine .handlers (need_ok hx) henter (scope_made (fun _ _ _ _ hrun => ?_) hrunBody)
      (ih (fun c hc => h c (mem_cons_of_mem _ hc)) hrunRest)
    exact .handler (h _ mem_cons_self hrun)

theorem opened_made (hbody : Makes ctx (sketchAll body ctx) (.stmts body)) :
    Makes ctx (Sketch.scope (Sketch.opening resources (Sketch.scope (sketchAll body ctx))))
      (.scope (.opening resources body)) := by
  refine scope_made fun cur L code L' hrun => ?_
  obtain ⟨⟨more, L₁⟩, hrunBody, hrun⟩ := exists_of_bind_ok hrun
  cases hrun
  exact .opening (scope_made hbody hrunBody)

theorem guardedBody_made (hbody : Makes ctx (sketchAll body ctx) (.stmts body))
    (hcatches : ∀ c ∈ catches, Makes ctx (sketchAll c.body ctx) (.stmts c.body)) {cur : List Op}
    {hs : List Handler} (hrun : Sketch.guardedBody ctx resources (sketchAll body)
      (sketchCatches catches) cur L = .ok (hs, code, L')) :
    Made ctx L cur (.guarded resources body catches hs) code L' := by
  obtain ⟨⟨code, L₁⟩, hrunBody, hrun⟩ := exists_of_bind_ok hrun
  obtain ⟨⟨hs, more, L₂⟩, hrunRest, hrun⟩ := exists_of_bind_ok hrun
  cases hrun
  exact .guarded (opened_made hbody hrunBody) (handlers_made catches hcatches hrunRest)

theorem tryCatch_made {resources : List LocalDecl} {final : Option (Context → Sketch)}
    {finalStmts : Option (List Stmt)}
    (hneeds : (Stmt.tryCatch resources body catches finalStmts loc).needsLowering ctx.markers)
    (hbody : Makes ctx (sketchAll body ctx) (.stmts body))
    (hcatches : ∀ c ∈ catches, Makes ctx (sketchAll c.body ctx) (.stmts c.body))
    (hfinal : Makes ctx (Sketch.branch final ctx) (.final finalStmts)) :
    Makes ctx (Sketch.tryCatch resources (sketchAll body) (sketchCatches catches) final loc ctx)
      (.stmt (.tryCatch resources body catches finalStmts loc)) := by
  intro cur L code L' hrun
  obtain ⟨_, hinits, hrun⟩ := exists_of_bind_ok hrun
  obtain ⟨xs, hxs, hrun⟩ := exists_of_bind_ok hrun
  obtain ⟨L₂, hguard, hrun⟩ := exists_of_bind_ok hrun
  obtain ⟨⟨hs, inner, Lin⟩, hinner, hrun⟩ := exists_of_bind_ok hrun
  obtain ⟨L₃, henterFinal, hrun⟩ := exists_of_bind_ok hrun
  obtain ⟨⟨code, L₄⟩, hrunFinal, hrun⟩ := exists_of_bind_ok hrun
  obtain ⟨⟨ops, L₅⟩, hsettle, hrun⟩ := exists_of_bind_ok hrun
  obtain ⟨L₆, hend, hrun⟩ := exists_of_bind_ok hrun
  cases hrun
  refine .tryCatch hneeds (fun d hd e he => ?_) ?_ rfl hguard
    (guardedBody_made hbody hcatches hinner) henterFinal
    (hfinal hrunFinal) hsettle hend
  · exact checkAll_ok hinits e (mem_flatMap.mpr ⟨d, hd, Option.mem_toList.mpr he⟩)
  · have hsymbols := symbolsOf_ok hxs
    rw [map_map] at hsymbols
    exact hsymbols

end Rules

mutual

/-- **What the sketch of a statement makes follows the rules.** -/
theorem sketch_made : ∀ (st : Stmt) (ctx : Context), Makes ctx (st.sketch ctx) (.stmt st)
  | .empty loc, ctx => unlessPlain_made fun h => by cases h
  | .expr e loc, ctx => expr_made e
  | .declare d loc, ctx => declare_made d
  | .block body loc, ctx =>
    unlessPlain_made fun h _ _ _ _ hrun => .block h (scope_made (sketchAll_made body ctx) hrun)
  | .cond test yes no loc, ctx =>
    unlessPlain_made fun h => cond_made h (sketch_made yes ctx) (sketchElse_made no ctx)
  | .whileLoop test body loc, ctx =>
    unlessPlain_made fun h _ _ _ _ hrun =>
      .loopStmt h rfl (whileLoop_made (sketch_made body) none test hrun)
  | .doWhile body test loc, ctx =>
    unlessPlain_made fun h _ _ _ _ hrun =>
      .loopStmt h rfl (doWhile_made (sketch_made body) none test hrun)
  | .forLoop init test update body loc, ctx =>
    unlessPlain_made fun h _ _ _ _ hrun =>
      .loopStmt h rfl (forLoop_made (sketch_made body) (sketchAll_made init) none test update hrun)
  | .forEach var iterable body loc, ctx =>
    unlessPlain_made fun h _ _ _ _ hrun =>
      .loopStmt h rfl (forEach_made (sketch_made body) none var iterable hrun)
  | .switch selector cases loc, ctx =>
    unlessPlain_made fun h => switch_made h (sketchCases_made cases)
  | .tryCatch resources body catches final loc, ctx =>
    unlessPlain_made fun h => tryCatch_made h (sketchAll_made body ctx)
      (sketchCatches_made catches ctx) (sketchFinal_made final ctx)
  | .labeled label body loc, ctx => by
    by_cases hloop : body.isLoop
    · rw [Stmt.sketch]
      refine unlessPlain_made fun h _ _ _ _ hrun => ?_
      obtain ⟨_, hlabel, hrun⟩ := exists_of_bind_ok hrun
      refine .labeledLoop h hloop (checkLabel_ok hlabel) ?_
      cases body with
      | whileLoop test b => exact whileLoop_made (sketch_made b) _ test hrun
      | doWhile b test => exact doWhile_made (sketch_made b) _ test hrun
      | forLoop init test update b =>
        exact forLoop_made (sketch_made b) (sketchAll_made init) _ test update hrun
      | forEach var iterable b => exact forEach_made (sketch_made b) _ var iterable hrun
      | _ => cases hloop
    · rw [Bool.not_eq_true] at hloop
      have hbody := sketch_made body
      rw [Stmt.sketch_labeled hloop]
      refine unlessPlain_made fun h _ _ _ _ hrun => ?_
      obtain ⟨_, hlabel, hrun⟩ := exists_of_bind_ok hrun
      exact labeled_made hbody h hloop (checkLabel_ok hlabel) hrun
  | .synchronized lock body loc, ctx =>
    unlessPlain_made fun h => synchronized_made h (sketchAll_made body ctx)
  | .ret value loc, ctx => ret_made value
  | .brk label loc, ctx => brk_made label
  | .cont label loc, ctx => cont_made label
  | .raise e loc, ctx => unlessPlain_made fun _ => misplaced_made

theorem sketchAll_made : ∀ (ss : List Stmt) (ctx : Context),
    Makes ctx (sketchAll ss ctx) (.stmts ss)
  | [], ctx => by
    intro cur L code L' hrun
    cases hrun
    exact .nil
  | st :: ss, ctx => by
    intro cur L code L' hrun
    obtain ⟨⟨code, L₁⟩, hhead, hrun⟩ := exists_of_bind_ok hrun
    obtain ⟨⟨more, L₂⟩, htail, hrun⟩ := exists_of_bind_ok hrun
    cases hrun
    exact .cons (sketch_made st ctx hhead) (sketchAll_made ss ctx htail)

theorem sketchElse_made : ∀ (no : Option Stmt) (ctx : Context),
    Makes ctx (Sketch.branch (sketchElse no) ctx) (.branch no)
  | none, ctx => by
    intro cur L code L' hrun
    cases hrun
    exact .noBranch
  | some st, ctx => fun _ _ _ _ hrun => .branch (scope_made (sketch_made st ctx) hrun)

theorem sketchFinal_made : ∀ (final : Option (List Stmt)) (ctx : Context),
    Makes ctx (Sketch.branch (sketchFinal final) ctx) (.final final)
  | none, ctx => by
    intro cur L code L' hrun
    cases hrun
    exact .noFinal
  | some body, ctx => fun _ _ _ _ hrun => .final (scope_made (sketchAll_made body ctx) hrun)

theorem sketchCases_made : ∀ (cases : List SwitchCase) (ctx : Context), ∀ c ∈ cases,
    Makes ctx (sketchAll c.body ctx) (.stmts c.body)
  | [], _, _, hc => absurd hc not_mem_nil
  | .mk labels isDefault body :: cases, ctx, c, hc => by
    rcases mem_cons.mp hc with rfl | hc
    · exact sketchAll_made body ctx
    · exact sketchCases_made cases ctx c hc

theorem sketchCatches_made : ∀ (catches : List CatchClause) (ctx : Context), ∀ c ∈ catches,
    Makes ctx (sketchAll c.body ctx) (.stmts c.body)
  | [], _, _, hc => absurd hc not_mem_nil
  | .mk param types body :: catches, ctx, c, hc => by
    rcases mem_cons.mp hc with rfl | hc
    · exact sketchAll_made body ctx
    · exact sketchCatches_made catches ctx c hc

end

end Lowering

end Resumable
