import Resumable.Execution.Generator
import Resumable.Proofs.Watch

/-!
# Recorded runs

Statements and machines are run once more, with a record. What goes into the record is up to a
recorder: it says how evaluations, the steps of machines themselves, what machines do, final code,
failures to close and code under locks are recorded.

* `Recorder` carries the proof that a record changes nothing;
* `Stmt.record`, `Op.record`, `Machine.record` and so on are the recorded runs;
* `Stmt.erase_record` and `Machine.erase_record` say that without their records they are the runs;
* `Recorder.events` records what machines do.
-/

namespace Resumable

open List Watched

/-- What a machine does. Machines are named by their selectors. -/
inductive Event where
  /-- the machine itself raises a fault -/
  | broke (f : Fault)
  /-- a state starts to run -/
  | visit (selector : SymbolId) (number : Int)
  /-- control passes the end of a state -/
  | passed (selector : SymbolId) (number : Int)
  /-- control goes to a tag -/
  | goto (selector : SymbolId) (tag : Tag)
  /-- the machine is told to resume at a tag -/
  | resumeAt (selector : SymbolId) (tag : Tag)
  /-- the machine ends -/
  | finish (selector : SymbolId)
  /-- an op stores a value in a field -/
  | assign (x : SymbolId) (v : Value)
  /-- an op drops the reference in a field -/
  | clear (x : SymbolId)
  /-- the machine of a guard stops: with a value, at its end, or with a failure -/
  | stopped (selector : SymbolId) (outcome : Except Value (Option Value))
  /-- a guard closes the value of a field, which may fail -/
  | close (x : SymbolId) (v : Value) (failure : Option Value)
  /-- a guard passes a failure to the handler that starts at a tag -/
  | handle (selector : SymbolId) (entry : Tag) (failure : Value)
  /-- a failure waits for the end of final code -/
  | wait (pending : SymbolId) (failure : Value)
  /-- final code is over, and this failure, or null, has waited for it -/
  | settle (pending : SymbolId) (failure : Value)

/-- Whether the code goes on when the machine is resumed. -/
def Flow.suspends : Flow → Bool
  | .suspend _ => true
  | _ => false

/-- How runs are recorded. Nothing of a run but its record depends on this. -/
structure Recorder (ε : Type) where
  /-- an evaluation, or a statement that has no parts -/
  eval : {α : Type} → Run α → Watched ε α
  /-- a step of a machine itself -/
  own : {α : Type} → Run α → Watched ε α
  /-- what a machine does -/
  event : Event → Watched ε Unit
  /-- final code behind a result; it takes the place of the result unless it completes normally -/
  replacing : Except Fault Completion → Watched ε Completion → Watched ε Completion
  /-- the failure to close a resource, where there is a result already -/
  raising : Except Fault Completion → Fault → Watched ε Value
  /-- code under a lock that was just taken, and which of its results say that it will go on -/
  underLock : {α : Type} → (α → Bool) → Watched ε α → Watched ε α
  erase_eval : ∀ {α : Type} (c : Run α), erase (eval c) = c
  erase_own : ∀ {α : Type} (c : Run α), erase (own c) = c
  erase_event : ∀ ev, erase (event ev) = pure ()
  erase_replacing : ∀ result c, erase (replacing result c) = erase c
  erase_raising : ∀ result f, erase (raising result f) = (f.caught : Run Value)
  erase_underLock : ∀ {α : Type} (suspends : α → Bool) (c : Watched ε α),
    erase (underLock suspends c) = erase c

attribute [simp] Recorder.erase_eval Recorder.erase_own Recorder.erase_event
  Recorder.erase_replacing Recorder.erase_raising Recorder.erase_underLock

/-- Records what machines do. -/
def Recorder.events : Recorder Event where
  eval c := liftM c
  own := logFault .broke
  event := log
  replacing _ c := c
  raising _ f := liftM (f.caught : Run Value)
  underLock _ c := c
  erase_eval _ := rfl
  erase_own := erase_logFault _
  erase_event _ := rfl
  erase_replacing _ _ := rfl
  erase_raising _ _ := rfl
  erase_underLock _ _ := rfl

/-- The start of a handler, with its body. -/
structure Watched.Handling (ε : Type) where
  param : Ident
  types : List TypeRef
  body : Watched ε Completion

/-- The handler without a record. -/
def Watched.Handling.erase {ε : Type} (c : Handling ε) : Run.Handling :=
  ⟨c.param, c.types, Watched.erase c.body⟩

namespace Recorder

variable {ε : Type} (r : Recorder ε)

/-! ## Tries -/

/-- Opens resources in order. -/
def openAll (h : Host) : List LocalDecl → List Value → Watched ε (List Value × Option Fault)
  | [], opened => pure (opened, none)
  | d :: ds, opened => do
    match ← attempt (r.eval (d.init.elim (pure .null) (Expr.eval h))) with
    | .ok v => do
      r.eval (Run.store d.name v)
      openAll h ds (v :: opened)
    | .error f => return (opened, some f)

/-- Closes what was opened, from the front. -/
def closeAll (h : Host) (result : Except Fault Completion) :
    List Value → Watched ε (Except Fault Completion)
  | [] => pure result
  | v :: vs => do
    if v.isNull then closeAll h result vs
    else
      match ← attempt (r.eval (Run.ofEffect (v.invoke h "close" []))) with
      | .ok _ => closeAll h result vs
      | .error f => do
        let failure ← r.raising result f
        let result ← Run.afterCloseFailure failure result
        closeAll h result vs

/-- Runs a body with resources that are open while it runs. -/
def withResources (h : Host) (resources : List LocalDecl) (body : Watched ε Completion) :
    Watched ε Completion := do
  let (opened, stopped) ← r.openAll h resources []
  let result ←
    match stopped with
    | some f => pure (.error f)
    | none => attempt body
  (ofResult (← r.closeAll h result opened) : Run Completion)

/-- Passes a failure to the first handler that takes it. -/
def handle (handlers : List (Handling ε)) (result : Except Fault Completion) :
    Watched ε (Except Fault Completion) := do
  match result with
  | .ok c => return .ok c
  | .error f =>
    if f.isCatchable then do
      let failure ← (f.caught : Run Value)
      match handlers.find? fun c => failure.isAnyOf c.types with
      | some c => do
        r.eval (Run.store c.param failure)
        attempt c.body
      | none => return .error f
    else return .error f

/-- Runs final code after a result. -/
def finishWith (final : Option (Watched ε Completion)) (result : Except Fault Completion) :
    Watched ε Completion := do
  match final with
  | none => (ofResult result : Run Completion)
  | some final => do
    match ← r.replacing result final with
    | .normal => (ofResult result : Run Completion)
    | c => return c

/-- Runs a try. -/
def tryWith (h : Host) (resources : List LocalDecl) (body : Watched ε Completion)
    (handlers : List (Handling ε)) (final : Option (Watched ε Completion)) :
    Watched ε Completion := do
  let result ← attempt (r.withResources h resources body)
  r.finishWith final (← r.handle handlers result)

theorem erase_openAll (h : Host) (ds : List LocalDecl) (opened : List Value) :
    erase (r.openAll h ds opened) = Run.openAll h ds opened := by
  induction ds generalizing opened with
  | nil => rfl
  | cons d ds ih =>
    refine erase_bind_eq (congrArg Run.attempt (r.erase_eval _)) fun result => ?_
    cases result with
    | ok => exact erase_bind_eq (r.erase_eval _) fun _ => ih _
    | error => rfl

theorem erase_closeAll (h : Host) (result : Except Fault Completion) (vs : List Value) :
    erase (r.closeAll h result vs) = Run.closeAll h result vs := by
  induction vs generalizing result with
  | nil => rfl
  | cons v vs ih =>
    rw [closeAll, Run.closeAll]
    cases v.isNull with
    | true => exact ih result
    | false =>
      simp only [Bool.false_eq_true, if_false]
      refine erase_bind_eq (congrArg Run.attempt (r.erase_eval _)) fun closed => ?_
      cases closed with
      | ok => exact ih result
      | error =>
        refine erase_bind_eq (r.erase_raising ..) fun failure => ?_
        exact erase_bind_eq rfl fun result => ih result

theorem erase_withResources (h : Host) (resources : List LocalDecl) (body : Watched ε Completion) :
    erase (r.withResources h resources body) = Run.withResources h resources (erase body) := by
  refine erase_bind_eq (r.erase_openAll ..) fun opened => ?_
  obtain ⟨opened, stopped⟩ := opened
  cases stopped with
  | some => simp only [erase_bind, erase_pure, erase_closeAll, erase_liftM]
  | none => simp only [erase_bind, erase_attempt, erase_closeAll, erase_liftM]

theorem erase_handle (handlers : List (Handling ε)) (result : Except Fault Completion) :
    erase (r.handle handlers result) = Run.handle (handlers.map Handling.erase) result := by
  cases result with
  | ok => rfl
  | error f =>
    rw [handle, Run.handle]
    cases f.isCatchable with
    | false => rfl
    | true =>
      simp only [if_true, erase_bind, erase_liftM, find?_map]
      congr 1
      funext failure
      have hfind : handlers.find? ((fun c : Run.Handling => failure.isAnyOf c.types) ∘
          Handling.erase) = handlers.find? fun c => failure.isAnyOf c.types := rfl
      rw [hfind]
      cases handlers.find? fun c => failure.isAnyOf c.types with
      | none => rfl
      | some => simp only [Option.map_some, erase_bind, erase_eval, erase_attempt]; rfl

theorem erase_finishWith (final : Option (Watched ε Completion))
    (result : Except Fault Completion) :
    erase (r.finishWith final result) = Run.finishWith (final.map erase) result := by
  cases final with
  | none => rfl
  | some =>
    refine erase_bind_eq (r.erase_replacing ..) fun c => ?_
    cases c with
    | normal | jump => rfl

theorem erase_tryWith (h : Host) (resources : List LocalDecl) (body : Watched ε Completion)
    (handlers : List (Handling ε)) (final : Option (Watched ε Completion)) :
    erase (r.tryWith h resources body handlers final) =
      Run.tryWith h resources (erase body) (handlers.map Handling.erase) (final.map erase) := by
  refine erase_bind_eq (congrArg Run.attempt (r.erase_withResources ..)) fun result => ?_
  exact erase_bind_eq (r.erase_handle ..) fun result => r.erase_finishWith ..

end Recorder

/-! ## Statements -/

mutual

/-- The recorded run of a statement. -/
def Stmt.record {ε : Type} (r : Recorder ε) (h : Host) (fuel : Nat) (label : Option String) :
    Stmt → Watched ε Completion
  | .empty loc => r.eval (Stmt.exec h fuel label (.empty loc))
  | .expr e loc => r.eval (Stmt.exec h fuel label (.expr e loc))
  | .declare d loc => r.eval (Stmt.exec h fuel label (.declare d loc))
  | .block body _ => recordAll r h fuel body
  | .cond test yes none _ => do
    if ← r.eval (test.test h) then yes.record r h fuel none else return .normal
  | .cond test yes (some no) _ => do
    if ← r.eval (test.test h) then yes.record r h fuel none else no.record r h fuel none
  | .whileLoop test body _ =>
    whileTrue fuel label (r.eval (test.test h)) (body.record r h fuel none)
  | .doWhile body test _ => untilFalse fuel label (body.record r h fuel none) (r.eval (test.test h))
  | .forLoop init test update body _ => do
    recordStart r h fuel init
    counting fuel label (r.eval (test.elim (pure true) (Expr.test h)))
      (r.eval (do let _ ← evalAll h update)) (body.record r h fuel none)
  | .forEach var iterable body _ => do
    let source ← r.eval (iterable.eval h)
    let iterator ← r.eval (Run.ofEffect (source.invoke h "iterator" []))
    whileTrue fuel label (r.eval (do (← iterator.invoke h "hasNext" []).asBool)) do
      let v ← r.eval (Run.ofEffect (iterator.invoke h "next" []))
      r.eval (Run.store var.name v)
      body.record r h fuel none
  | .switch selector cases _ => do
    let v ← r.eval (selector.eval h)
    match ← r.eval (Run.startOfSwitch h v cases) with
    | some n => fallThrough ((recordCases r h fuel cases).drop n)
    | none => return .normal
  | .tryCatch resources body catches none _ =>
    r.tryWith h resources (recordAll r h fuel body) (recordHandlers r h fuel catches) none
  | .tryCatch resources body catches (some final) _ =>
    r.tryWith h resources (recordAll r h fuel body) (recordHandlers r h fuel catches)
      (some (recordAll r h fuel final))
  | .labeled own body _ => do return (← body.record r h fuel (some own)).behindLabel own
  | .synchronized e body _ => do
    r.eval (lock h e)
    r.underLock (fun _ => false) (recordAll r h fuel body)
  | .ret value loc => r.eval (Stmt.exec h fuel label (.ret value loc))
  | .brk target loc => r.eval (Stmt.exec h fuel label (.brk target loc))
  | .cont target loc => r.eval (Stmt.exec h fuel label (.cont target loc))
  | .raise e loc => r.eval (Stmt.exec h fuel label (.raise e loc))

/-- The recorded run of statements. -/
def recordAll {ε : Type} (r : Recorder ε) (h : Host) (fuel : Nat) :
    List Stmt → Watched ε Completion
  | [] => pure .normal
  | s :: rest => do
    match ← s.record r h fuel none with
    | .normal => recordAll r h fuel rest
    | c => return c

/-- The recorded run of the statements in the head of a loop. -/
def recordStart {ε : Type} (r : Recorder ε) (h : Host) (fuel : Nat) : List Stmt → Watched ε Unit
  | [] => pure ()
  | s :: rest => do
    let _ ← s.record r h fuel none
    recordStart r h fuel rest

/-- The recorded bodies of cases. -/
def recordCases {ε : Type} (r : Recorder ε) (h : Host) (fuel : Nat) :
    List SwitchCase → List (Watched ε Completion)
  | [] => []
  | .mk _ _ body :: rest => recordAll r h fuel body :: recordCases r h fuel rest

/-- The recorded handlers of a try. -/
def recordHandlers {ε : Type} (r : Recorder ε) (h : Host) (fuel : Nat) :
    List CatchClause → List (Handling ε)
  | [] => []
  | .mk param types body :: rest =>
    ⟨param, types, recordAll r h fuel body⟩ :: recordHandlers r h fuel rest

end

section Erase

variable {ε : Type} (r : Recorder ε)

mutual

/-- **A record changes nothing**: without it, the recorded run of a statement is its run. -/
theorem Stmt.erase_record (h : Host) (fuel : Nat) (label : Option String) (s : Stmt) :
    erase (s.record r h fuel label) = s.exec h fuel label := by
  cases s with
  | empty | expr | declare | ret | brk | cont | raise => exact r.erase_eval _
  | block body => exact erase_recordAll h fuel body
  | cond test yes no =>
    cases no with
    | none =>
      refine erase_bind_eq (r.erase_eval _) fun b => ?_
      cases b with
      | true => exact yes.erase_record h fuel none
      | false => rfl
    | some no =>
      refine erase_bind_eq (r.erase_eval _) fun b => ?_
      cases b with
      | true => exact yes.erase_record h fuel none
      | false => exact no.erase_record h fuel none
  | whileLoop test body =>
    rw [Stmt.record, Stmt.exec, erase_whileTrue, r.erase_eval, body.erase_record h fuel none]
  | doWhile body =>
    rw [Stmt.record, Stmt.exec, erase_untilFalse, r.erase_eval, body.erase_record h fuel none]
  | forLoop init test update body =>
    refine erase_bind_eq (erase_recordStart h fuel init) fun _ => ?_
    rw [erase_counting, r.erase_eval, r.erase_eval, body.erase_record h fuel none]
  | forEach var iterable body =>
    refine erase_bind_eq (r.erase_eval _) fun source => ?_
    refine erase_bind_eq (r.erase_eval _) fun iterator => ?_
    simp only [erase_whileTrue, r.erase_eval, erase_bind, body.erase_record h fuel none]
    rfl
  | switch selector cases =>
    refine erase_bind_eq (r.erase_eval _) fun v => ?_
    refine erase_bind_eq (r.erase_eval _) fun n => ?_
    cases n with
    | none => rfl
    | some => simp only [erase_fallThrough, map_drop, erase_recordCases h fuel cases]
  | tryCatch resources body catches final =>
    cases final with
    | none =>
      rw [Stmt.record, Stmt.exec, r.erase_tryWith, erase_recordAll h fuel body,
        erase_recordHandlers h fuel catches]
      rfl
    | some final =>
      rw [Stmt.record, Stmt.exec, r.erase_tryWith, erase_recordAll h fuel body,
        erase_recordHandlers h fuel catches, Option.map_some, erase_recordAll h fuel final]
  | labeled own body =>
    rw [Stmt.record, Stmt.exec, erase_bind, body.erase_record h fuel (some own)]
    rfl
  | synchronized e body =>
    refine erase_bind_eq (r.erase_eval _) fun _ => ?_
    rw [r.erase_underLock]
    exact erase_recordAll h fuel body

theorem erase_recordAll (h : Host) (fuel : Nat) (ss : List Stmt) :
    erase (recordAll r h fuel ss) = execAll h fuel ss := by
  cases ss with
  | nil => rfl
  | cons s ss =>
    refine erase_bind_eq (s.erase_record h fuel none) fun c => ?_
    cases c with
    | normal => exact erase_recordAll h fuel ss
    | jump => rfl

theorem erase_recordStart (h : Host) (fuel : Nat) (ss : List Stmt) :
    erase (recordStart r h fuel ss) = execStart h fuel ss := by
  cases ss with
  | nil => rfl
  | cons s ss =>
    exact erase_bind_eq (s.erase_record h fuel none) fun _ => erase_recordStart h fuel ss

theorem erase_recordCases (h : Host) (fuel : Nat) (cs : List SwitchCase) :
    (recordCases r h fuel cs).map erase = execCases h fuel cs := by
  cases cs with
  | nil => rfl
  | cons c cs =>
    obtain ⟨labels, isDefault, body⟩ := c
    rw [recordCases, execCases, map_cons, erase_recordAll h fuel body, erase_recordCases h fuel cs]

theorem erase_recordHandlers (h : Host) (fuel : Nat) (cs : List CatchClause) :
    (recordHandlers r h fuel cs).map Handling.erase = execHandlers h fuel cs := by
  cases cs with
  | nil => rfl
  | cons c cs =>
    obtain ⟨param, types, body⟩ := c
    rw [recordHandlers, execHandlers, map_cons, Handling.erase, erase_recordAll h fuel body,
      erase_recordHandlers h fuel cs]

end

end Erase

namespace Recorder

variable {ε : Type} (r : Recorder ε)

/-! ## Dispatch -/

/-- Runs a state, and says where the machine goes on. -/
def runState (selector : SymbolId) (number : Int) (body : Watched ε Flow) :
    Watched ε (Option Int ⊕ Option Value) := do
  r.event (.visit selector number)
  match ← body with
  | .next => do
    r.event (.passed selector number)
    return .inl (some (number + 1))
  | .dispatch => return .inl none
  | .suspend v => return .inr (some v)
  | .done => return .inr none

/-- The state of a number, if there is one. -/
def stateOf? {α : Type} (states : Nat → Option α) : Int → Option α
  | .ofNat (n + 1) => states n
  | _ => none

/-- Runs the state of a number. -/
def enterState (selector : SymbolId) (states : Nat → Option (Watched ε Flow)) (number : Int) :
    Watched ε (Option Int ⊕ Option Value) :=
  match stateOf? states number with
  | none => r.own (Run.fail (.unreachable number))
  | some body => r.runState selector number body

/-- Runs states from the one that the selector holds. -/
def dispatch (fuel : Nat) (selector : SymbolId) (states : Nat → Option (Watched ε Flow)) :
    Watched ε (Option Value) :=
  loop (fun
    | some number => r.enterState selector states number
    | none => do
      let number ← r.own do (← Run.field selector).asInt
      if number = 0 then return .inr none
      else r.enterState selector states number.toInt) fuel none

/-! ## Guards -/

/-- Closes the resources in fields, from the front, and empties the fields. -/
def closeFields (h : Host) : Option Value → List SymbolId → Watched ε (Option Value)
  | primary, [] => return primary
  | primary, x :: xs => do
    let v ← Run.takeField x
    if v.isNull then closeFields h primary xs
    else
      match ← attempt (r.eval (Run.ofEffect (v.invoke h "close" []))) with
      | .ok _ => do
        r.event (.close x v none)
        closeFields h primary xs
      | .error f => do
        let failure ← (f.caught : Run Value)
        r.event (.close x v (some failure))
        match primary with
        | some p => do
          (World.addSuppressed p failure : Run Unit)
          closeFields h (some p) xs
        | none => closeFields h (some failure) xs

/-- Where a guard goes after its body has failed. -/
def enterHandler (tags : TagTable) (selector : SymbolId) (g : GuardFields) (failure : Value) :
    Watched ε (Option Flow) := do
  Run.setField g.pendingJump (.int (-1))
  match g.handlers.find? fun handler => failure.isAnyOf handler.types with
  | some handler => do
    Run.setField g.inHandler (.bool true)
    Run.setField handler.param failure
    r.event (.handle selector handler.entry failure)
    r.own (Run.setState tags selector handler.entry)
    return none
  | none => do
    r.event (.wait g.pending failure)
    Run.setField g.pending failure
    return some .next

/-- One stay in the machine of a guard. -/
def guardRound (e : Engine) (g : GuardFields) (selector : SymbolId)
    (machine : Watched ε (Option Value)) : Watched ε (Option Flow) := do
  let handling ← r.own do (← Run.field g.inHandler).asBool
  match ← attempt machine with
  | .ok (some v) => do
    r.event (.stopped selector (.ok (some v)))
    return some (.suspend v)
  | .ok none => do
    r.event (.stopped selector (.ok none))
    if handling then return some .next
    else
      match ← r.closeFields e.host none g.resources.reverse with
      | none => return some .next
      | some failure => r.enterHandler e.tags selector g failure
  | .error f => do
    let failure ← (f.caught : Run Value)
    r.event (.stopped selector (.error failure))
    if handling then do
      r.event (.wait g.pending failure)
      Run.setField g.pending failure
      return some .next
    else do
      let _ ← r.closeFields e.host (some failure) g.resources.reverse
      r.enterHandler e.tags selector g failure

theorem erase_enterState (selector : SymbolId) (states : Nat → Option (Watched ε Flow))
    (number : Int) : erase (r.enterState selector states number) =
      Run.enterState (fun n => (states n).map erase) number := by
  cases number with
  | ofNat n =>
    cases n with
    | zero => exact r.erase_own _
    | succ n =>
      simp only [enterState, Run.enterState, stateOf?]
      cases states n with
      | none => exact r.erase_own _
      | some body =>
        simp only [Option.map_some, runState, erase_bind, erase_event, pure_bind]
        congr 1
        funext flow
        cases flow with
        | next => simp only [erase_bind, erase_event, pure_bind, erase_pure]
        | dispatch | suspend | done => rfl
  | negSucc => exact r.erase_own _

theorem erase_dispatch (fuel : Nat) (selector : SymbolId)
    (states : Nat → Option (Watched ε Flow)) : erase (r.dispatch fuel selector states) =
      Run.dispatch fuel selector fun n => (states n).map erase := by
  rw [dispatch, Run.dispatch, erase_loop]
  congr 1
  funext b
  cases b with
  | some number => exact r.erase_enterState selector states number
  | none =>
    rw [erase_bind, r.erase_own, bind_assoc]
    congr 1
    funext v
    congr 1
    funext number
    by_cases hzero : number = 0
    · rw [if_pos hzero, if_pos hzero]
      rfl
    · rw [if_neg hzero, if_neg hzero]
      exact r.erase_enterState ..

theorem erase_closeFields (h : Host) (primary : Option Value) (xs : List SymbolId) :
    erase (r.closeFields h primary xs) = Run.closeFields h primary xs := by
  induction xs generalizing primary with
  | nil => rfl
  | cons x xs ih =>
    refine erase_bind_eq rfl fun v => ?_
    by_cases hnull : v.isNull
    · rw [if_pos hnull, if_pos hnull]
      exact ih primary
    · rw [if_neg hnull, if_neg hnull]
      refine erase_bind_eq (congrArg Run.attempt (r.erase_eval _)) fun closed => ?_
      cases closed with
      | ok =>
        rw [erase_bind, r.erase_event, pure_bind]
        exact ih primary
      | error =>
        refine erase_bind_eq rfl fun failure => ?_
        rw [erase_bind, r.erase_event, pure_bind]
        cases primary with
        | some p => exact erase_bind_eq rfl fun _ => ih (some p)
        | none => exact ih (some failure)

theorem erase_enterHandler (tags : TagTable) (selector : SymbolId) (g : GuardFields)
    (failure : Value) :
    erase (r.enterHandler tags selector g failure) = Run.enterHandler tags selector g failure := by
  refine erase_bind_eq rfl fun _ => ?_
  cases g.handlers.find? fun handler => failure.isAnyOf handler.types with
  | none => simp only [erase_bind, erase_event, erase_liftM, erase_pure, pure_bind]
  | some => simp only [erase_bind, erase_event, erase_own, erase_liftM, erase_pure, pure_bind]

theorem erase_guardRound (e : Engine) (g : GuardFields) (selector : SymbolId)
    (machine : Watched ε (Option Value)) :
    erase (r.guardRound e g selector machine) = Run.guardRound e g selector (erase machine) := by
  rw [guardRound, Run.guardRound, erase_bind, r.erase_own, bind_assoc]
  congr 1
  funext v
  congr 1
  funext handling
  refine erase_bind_eq rfl fun stay => ?_
  -- the machine has failed, has come to its end, or has emitted a value
  rcases stay with f | (_ | v)
  · refine erase_bind_eq rfl fun failure => ?_
    rw [erase_bind, r.erase_event, pure_bind]
    cases handling with
    | true => simp only [if_true, erase_bind, erase_event, erase_liftM, erase_pure, pure_bind]
    | false =>
      simp only [Bool.false_eq_true, if_false, erase_bind, erase_closeFields, Run.closeResources,
        erase_enterHandler]
  · rw [erase_bind, r.erase_event, pure_bind]
    cases handling with
    | true => rfl
    | false =>
      simp only [Bool.false_eq_true, if_false, erase_bind, erase_closeFields, Run.closeResources]
      congr 1
      funext closed
      cases closed with
      | none => rfl
      | some => exact r.erase_enterHandler ..
  · simp only [erase_bind, erase_event, pure_bind, erase_pure]

end Recorder

/-! ## Machines -/

mutual

/-- The recorded run of an op. -/
def Op.record {ε : Type} (r : Recorder ε) (e : Engine) (selector : SymbolId) : Op → Watched ε Flow
  | .plain s => do r.eval (afterPlain s.location (← s.record r e.host e.fuel none))
  | .assign target value => do
    let v ← r.eval (value.eval e.host)
    r.event (.assign target v)
    Run.setField target v
    return .next
  | .clear x => do
    r.event (.clear x)
    Run.setField x .null
    return .next
  | .setState tag => do
    r.event (.resumeAt selector tag)
    r.own (Run.setState e.tags selector tag)
    return .next
  | .jump tag => do
    r.event (.goto selector tag)
    r.own (Run.setState e.tags selector tag)
    return .dispatch
  | .yield value => do return .suspend (← r.eval (value.eval e.host))
  | .finish => do
    r.event (.finish selector)
    Run.setField selector (.ofState StateId.finished.number)
    return .done
  | .cond test yes no => do
    if ← r.eval (test.test e.host) then recordOps r e selector yes else recordOps r e selector no
  | .switch scrutinee arms => do
    let v ← r.eval (scrutinee.eval e.host)
    match ← r.eval (Run.chooseArm e.host v arms) with
    | some tag => do
      r.event (.goto selector tag)
      r.own (Run.setState e.tags selector tag)
      return .dispatch
    | none => return .next
  | .synchronized x body => do
    r.eval (lock e.host x)
    r.underLock Flow.suspends (recordOps r e selector body)
  | .guarded (.mk id own states) fields =>
    repeatUntil e.fuel (r.guardRound e fields own (Machine.record r e (.mk id own states)))
  | .rethrow pending => do
    let failure ← Run.takeField pending
    r.event (.settle pending failure)
    if failure.isNull then return .next else r.eval (Run.fail (.thrown failure))

/-- The recorded run of ops. -/
def recordOps {ε : Type} (r : Recorder ε) (e : Engine) (selector : SymbolId) :
    List Op → Watched ε Flow
  | [] => pure .next
  | op :: ops => do
    match ← op.record r e selector with
    | .next => recordOps r e selector ops
    | flow => return flow

/-- The recorded run of the state at a place. -/
def recordState {ε : Type} (r : Recorder ε) (e : Engine) (selector : SymbolId) :
    List MachineState → Nat → Option (Watched ε Flow)
  | [], _ => none
  | .mk _ ops :: _, 0 => some (recordOps r e selector ops)
  | _ :: states, n + 1 => recordState r e selector states n

/-- The recorded run of a machine. -/
def Machine.record {ε : Type} (r : Recorder ε) (e : Engine) : Machine → Watched ε (Option Value)
  | .mk _ selector states => r.dispatch e.fuel selector fun n => recordState r e selector states n

end

section Erase

variable {ε : Type} (r : Recorder ε)

mutual

theorem Op.erase_record (e : Engine) (selector : SymbolId) (op : Op) :
    erase (op.record r e selector) = op.exec e selector := by
  cases op with
  | plain s => simp only [Op.record, Op.exec, erase_bind, r.erase_eval, s.erase_record]
  | assign => simp only [Op.record, Op.exec, erase_bind, r.erase_eval, r.erase_event, erase_liftM,
      erase_pure, pure_bind]
  | clear | finish => simp only [Op.record, Op.exec, erase_bind, r.erase_event, erase_liftM,
      erase_pure, pure_bind]
  | setState | jump => simp only [Op.record, Op.exec, erase_bind, r.erase_event, r.erase_own,
      erase_pure, pure_bind]
  | yield => simp only [Op.record, Op.exec, erase_bind, r.erase_eval, erase_pure]
  | cond test yes no =>
    refine erase_bind_eq (r.erase_eval _) fun b => ?_
    cases b with
    | true => exact erase_recordOps e selector yes
    | false => exact erase_recordOps e selector no
  | switch =>
    refine erase_bind_eq (r.erase_eval _) fun v => ?_
    refine erase_bind_eq (r.erase_eval _) fun arm => ?_
    cases arm with
    | none => rfl
    | some => simp only [erase_bind, r.erase_event, r.erase_own, erase_pure, pure_bind]
  | synchronized x body =>
    refine erase_bind_eq (r.erase_eval _) fun _ => ?_
    rw [r.erase_underLock]
    exact erase_recordOps e selector body
  | guarded machine =>
    obtain ⟨id, own, states⟩ := machine
    rw [Op.record, Op.exec, erase_repeatUntil, r.erase_guardRound,
      Machine.erase_record e (.mk id own states)]
  | rethrow =>
    refine erase_bind_eq rfl fun failure => ?_
    rw [erase_bind, r.erase_event, pure_bind]
    by_cases hnull : failure.isNull
    · rw [if_pos hnull, if_pos hnull]
      rfl
    · rw [if_neg hnull, if_neg hnull]
      exact r.erase_eval _

theorem erase_recordOps (e : Engine) (selector : SymbolId) (ops : List Op) :
    erase (recordOps r e selector ops) = execOps e selector ops := by
  cases ops with
  | nil => rfl
  | cons op ops =>
    refine erase_bind_eq (Op.erase_record e selector op) fun flow => ?_
    cases flow with
    | next => exact erase_recordOps e selector ops
    | dispatch | suspend | done => rfl

theorem erase_recordState (e : Engine) (selector : SymbolId) (states : List MachineState)
    (n : Nat) : (recordState r e selector states n).map erase = execState e selector states n := by
  cases states with
  | nil => rfl
  | cons state states =>
    obtain ⟨id, ops⟩ := state
    cases n with
    | zero => rw [recordState, execState, Option.map_some, erase_recordOps e selector ops]
    | succ n => exact erase_recordState e selector states n

/-- **A record changes nothing**: without it, the recorded run of a machine is its run. -/
theorem Machine.erase_record (e : Engine) (m : Machine) : erase (m.record r e) = m.exec e := by
  obtain ⟨id, selector, states⟩ := m
  rw [Machine.record, Machine.exec, r.erase_dispatch]
  congr 1
  funext n
  exact erase_recordState e selector states n

end

end Erase

end Resumable
