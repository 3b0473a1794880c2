import Resumable.Execution.Expr

/-!
# Execution of plain statements

Statements that neither emit nor return are run as they stand.

* a statement completes normally or with a jump that something around it takes;
* the start of a `for` is run for its effect alone, whatever way its statements complete;
* what a try opens is closed in reverse order before its handlers and its final code run; a failure
  to close is added to the exception that the body raised, or takes the place of its completion;
* final code that completes with a jump or a fault takes the place of what came before it.
-/

namespace Resumable

/-- How a statement completes. -/
inductive Completion where
  /-- with what follows it -/
  | normal
  /-- with a jump -/
  | jump (j : Jump)
  deriving DecidableEq, Inhabited

/-! ## Loops -/

/-- Whether a loop takes a jump with the label `target`. -/
def takesJump (label target : Option String) : Bool :=
  match target with
  | none => true
  | some t => label == some t

/-- How a loop ends after a round of its body, if it does. -/
def Completion.endOfLoop? (label : Option String) : Completion → Option Completion
  | .normal => none
  | .jump (.cont target) => if takesJump label target then none else some (.jump (.cont target))
  | .jump (.brk target) => some (if takesJump label target then .normal else .jump (.brk target))

namespace Run

/-- Repeats a body as long as a test in front of it holds. -/
def whileTrue (fuel : Nat) (label : Option String) (test : Run Bool) (body : Run Completion) :
    Run Completion :=
  repeatUntil fuel do
    if ← test then return (← body).endOfLoop? label else return some .normal

/-- Repeats a body as long as a test behind it holds. -/
def untilFalse (fuel : Nat) (label : Option String) (body : Run Completion) (test : Run Bool) :
    Run Completion :=
  repeatUntil fuel do
    match (← body).endOfLoop? label with
    | some c => return some c
    | none => if ← test then return none else return some .normal

/-- Repeats a body and then an update, as long as a test in front of them holds. -/
def counting (fuel : Nat) (label : Option String) (test : Run Bool) (update : Run Unit)
    (body : Run Completion) : Run Completion :=
  repeatUntil fuel do
    if ← test then
      match (← body).endOfLoop? label with
      | some c => return some c
      | none => do
        update
        return none
    else return some .normal

/-- Runs a body for each value of an iterator. -/
def forAll (fuel : Nat) (h : Host) (label : Option String) (var : Ident) (source : Value)
    (body : Run Completion) : Run Completion := do
  let iterator ← source.invoke h "iterator" []
  whileTrue fuel label (do (← iterator.invoke h "hasNext" []).asBool) do
    let v ← iterator.invoke h "next" []
    store var v
    body

/-! ## Switches -/

/-- The number of the first case that has a value among its labels, counted from `n`. -/
def caseOf (h : Host) (v : Value) : Nat → List SwitchCase → Run (Option Nat)
  | _, [] => pure none
  | n, c :: cs => do if ← anyLabel h v c.labels then return some n else caseOf h v (n + 1) cs

/-- The number of the case that a switch starts with. -/
def startOfSwitch (h : Host) (v : Value) (cases : List SwitchCase) : Run (Option Nat) := do
  match ← caseOf h v 0 cases with
  | some n => return some n
  | none => return cases.findIdx? SwitchCase.isDefault

/-- Runs bodies one after the other until one breaks. -/
def fallThrough : List (Run Completion) → Run Completion
  | [] => pure .normal
  | body :: bodies => do
    match ← body with
    | .normal => fallThrough bodies
    | .jump (.brk none) => return .normal
    | c => return c

/-! ## Tries -/

/-- The start of a handler: its variable and the types that it takes, with its body. -/
structure Handling where
  param : Ident
  types : List TypeRef
  body : Run Completion

/-- Opens resources in order. Gives what was opened, the last one first, and the fault that stopped
it. -/
def openAll (h : Host) : List LocalDecl → List Value → Run (List Value × Option Fault)
  | [], opened => pure (opened, none)
  | d :: ds, opened => do
    match ← attempt (d.init.elim (pure .null) (Expr.eval h)) with
    | .ok v => do
      store d.name v
      openAll h ds (v :: opened)
    | .error f => return (opened, some f)

/-- What becomes of the result of a body when closing fails. -/
def afterCloseFailure (failure : Value) : Except Fault Completion →
    Run (Except Fault Completion)
  | .ok _ => pure (.error (.thrown failure))
  | .error (.thrown primary) => do
    World.addSuppressed primary failure
    return .error (.thrown primary)
  | .error f => pure (.error f)

/-- Closes what was opened, from the front. -/
def closeAll (h : Host) (result : Except Fault Completion) :
    List Value → Run (Except Fault Completion)
  | [] => pure result
  | v :: vs => do
    if v.isNull then closeAll h result vs
    else
      match ← attempt (ofEffect (v.invoke h "close" [])) with
      | .ok _ => closeAll h result vs
      | .error f => do
        let failure ← f.caught
        let result ← afterCloseFailure failure result
        closeAll h result vs

/-- Runs a body with resources that are open while it runs. -/
def withResources (h : Host) (resources : List LocalDecl) (body : Run Completion) :
    Run Completion := do
  let (opened, stopped) ← openAll h resources []
  let result ←
    match stopped with
    | some f => pure (.error f)
    | none => attempt body
  ofResult (← closeAll h result opened)

/-- Passes a failure to the first handler that takes it. -/
def handle (handlers : List Handling) (result : Except Fault Completion) :
    Run (Except Fault Completion) := do
  match result with
  | .ok c => return .ok c
  | .error f =>
    if f.isCatchable then do
      let failure ← f.caught
      match handlers.find? fun c => failure.isAnyOf c.types with
      | some c => do
        store c.param failure
        attempt c.body
      | none => return .error f
    else return .error f

/-- Runs final code after a result. -/
def finishWith (final : Option (Run Completion)) (result : Except Fault Completion) :
    Run Completion := do
  match final with
  | none => ofResult result
  | some final => do
    match ← final with
    | .normal => ofResult result
    | c => return c

/-- Runs a try. -/
def tryWith (h : Host) (resources : List LocalDecl) (body : Run Completion)
    (handlers : List Handling) (final : Option (Run Completion)) : Run Completion := do
  let result ← attempt (withResources h resources body)
  finishWith final (← handle handlers result)

end Run

/-! ## Statements -/

/-- Raises the exception that a value is. -/
def raiseValue (v : Value) : Run Completion :=
  match v with
  | .exception e => Run.fail (.thrown (.exception e))
  | .null => (World.raise "NullPointerException" "cannot throw null" : Effect Completion)
  | v => Run.fail (.mismatch (.notThrowable v.kind))

/-- What is left of a completion behind a label. -/
def Completion.behindLabel (label : String) : Completion → Completion
  | .jump (.brk (some target)) =>
    if target = label then .normal else .jump (.brk (some target))
  | c => c

mutual

/-- Runs a statement. A loop takes the jumps with the label `label`. -/
def Stmt.exec (h : Host) (fuel : Nat) (label : Option String) : Stmt → Run Completion
  | .empty _ => pure .normal
  | .expr e _ => do
    let _ ← e.eval h
    return .normal
  | .declare d _ => do
    let v ← d.init.elim (pure (.initial d.type)) (Expr.eval h)
    Run.store d.name v
    return .normal
  | .block body _ => execAll h fuel body
  | .cond test yes none _ => do if ← test.test h then yes.exec h fuel none else return .normal
  | .cond test yes (some no) _ => do
    if ← test.test h then yes.exec h fuel none else no.exec h fuel none
  | .whileLoop test body _ => Run.whileTrue fuel label (test.test h) (body.exec h fuel none)
  | .doWhile body test _ => Run.untilFalse fuel label (body.exec h fuel none) (test.test h)
  | .forLoop init test update body _ => do
    execStart h fuel init
    Run.counting fuel label (test.elim (pure true) (Expr.test h))
      (do let _ ← evalAll h update) (body.exec h fuel none)
  | .forEach var iterable body _ => do
    Run.forAll fuel h label var.name (← iterable.eval h) (body.exec h fuel none)
  | .switch selector cases _ => do
    let v ← selector.eval h
    match ← Run.startOfSwitch h v cases with
    | some n => Run.fallThrough ((execCases h fuel cases).drop n)
    | none => return .normal
  | .tryCatch resources body catches none _ =>
    Run.tryWith h resources (execAll h fuel body) (execHandlers h fuel catches) none
  | .tryCatch resources body catches (some final) _ =>
    Run.tryWith h resources (execAll h fuel body) (execHandlers h fuel catches)
      (some (execAll h fuel final))
  | .labeled own body _ => do return (← body.exec h fuel (some own)).behindLabel own
  | .synchronized e body _ => do
    lock h e
    execAll h fuel body
  | .ret _ loc => Run.fail (.breach (.plainReturn loc))
  | .brk target _ => pure (.jump (.brk target))
  | .cont target _ => pure (.jump (.cont target))
  | .raise e _ => do raiseValue (← e.eval h)

/-- Runs statements until one jumps. -/
def execAll (h : Host) (fuel : Nat) : List Stmt → Run Completion
  | [] => pure .normal
  | s :: rest => do
    match ← s.exec h fuel none with
    | .normal => execAll h fuel rest
    | c => return c

/-- Runs the statements in the head of a loop, past any jump. -/
def execStart (h : Host) (fuel : Nat) : List Stmt → Run Unit
  | [] => pure ()
  | s :: rest => do
    let _ ← s.exec h fuel none
    execStart h fuel rest

/-- The bodies of cases. -/
def execCases (h : Host) (fuel : Nat) : List SwitchCase → List (Run Completion)
  | [] => []
  | .mk _ _ body :: rest => execAll h fuel body :: execCases h fuel rest

/-- The handlers of a try. -/
def execHandlers (h : Host) (fuel : Nat) : List CatchClause → List Run.Handling
  | [] => []
  | .mk param types body :: rest => ⟨param, types, execAll h fuel body⟩ :: execHandlers h fuel rest

end

end Resumable
