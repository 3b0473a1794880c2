import Resumable.Proofs.Every
import Resumable.Proofs.Record

/-!
# What holds of all recorded runs

A property of recorded computations goes over to the recorded runs of statements and machines if it
goes over to the ways in which these are put together.

* `Recorder.Passes` is what has to be known of a property for statements, and
  `Recorder.PassesOps` for machines; the inductions are `Stmt.record_passes` and
  `Machine.record_passes`;
* `Recorder.Attempts` is the case of a property that does not look at results: then tries and guards
  have it because their parts do;
* `Op.record_plain`: of a plain statement, machines have no events.
-/

namespace Resumable

open List Watched

/-! ## Tries without resources and final code -/

mutual

/-- No try in the statement has resources or final code. -/
def Stmt.keepsFaults : Stmt → Bool
  | .block body _ => keepsFaultsAll body
  | .cond _ yes none _ => yes.keepsFaults
  | .cond _ yes (some no) _ => yes.keepsFaults && no.keepsFaults
  | .whileLoop _ body _ => body.keepsFaults
  | .doWhile body _ _ => body.keepsFaults
  | .forLoop init _ _ body _ => keepsFaultsAll init && body.keepsFaults
  | .forEach _ _ body _ => body.keepsFaults
  | .switch _ cases _ => keepsFaultsCases cases
  | .tryCatch resources body catches final _ =>
    resources.isEmpty && final.isNone && keepsFaultsAll body && keepsFaultsCatches catches
  | .labeled _ body _ => body.keepsFaults
  | .synchronized _ body _ => keepsFaultsAll body
  | _ => true

def keepsFaultsAll : List Stmt → Bool
  | [] => true
  | s :: ss => s.keepsFaults && keepsFaultsAll ss

def keepsFaultsCases : List SwitchCase → Bool
  | [] => true
  | .mk _ _ body :: cs => keepsFaultsAll body && keepsFaultsCases cs

def keepsFaultsCatches : List CatchClause → Bool
  | [] => true
  | .mk _ _ body :: cs => keepsFaultsAll body && keepsFaultsCatches cs

end

/-- No try in the plain statements of the machine has resources or final code. -/
def Machine.keepsFaults (m : Machine) : Bool := m.plains.all Stmt.keepsFaults

/-! ## Statements -/

namespace Recorder

variable {ε : Type}

/-- A property goes over to sequences, locks and tries. If it is `strict`, only tries without
resources and final code count. -/
structure Passes (r : Recorder ε) (strict : Bool) (P : (α : Type) → Watched ε α → Prop) : Prop
    extends Modular P where
  eval : ∀ {α : Type} (c : Run α), P α (r.eval c)
  underLock : ∀ {c : Watched ε Completion}, P _ c → P _ (r.underLock (fun _ => false) c)
  tryWith : ∀ {h : Host} {resources : List LocalDecl} {body : Watched ε Completion}
    {handlers : List (Handling ε)} {final : Option (Watched ε Completion)},
    (strict = true → resources = [] ∧ final = none) → P _ body → (∀ c ∈ handlers, P _ c.body) →
    (∀ c ∈ final, P _ c) → P _ (r.tryWith h resources body handlers final)

end Recorder

theorem strictly_and {strict a b : Bool} (h : strict = true → (a && b) = true) :
    (strict = true → a = true) ∧ (strict = true → b = true) :=
  forall_and.mp fun hstrict => Bool.and_eq_true_iff.mp (h hstrict)

section Statements

variable {ε : Type} {r : Recorder ε} {strict : Bool} {P : (α : Type) → Watched ε α → Prop}

mutual

/-- What passes goes over to statements. -/
theorem Stmt.record_passes (hP : r.Passes strict P) (h : Host) (fuel : Nat)
    (label : Option String) (s : Stmt) (hs : strict = true → s.keepsFaults = true) :
    P _ (s.record r h fuel label) := by
  cases s with
  | block body => exact recordAll_passes hP h fuel body hs
  | cond test yes no =>
    cases no with
    | none =>
      refine hP.bind (hP.eval _) fun b => ?_
      cases b with
      | true => exact yes.record_passes hP h fuel none hs
      | false => exact hP.pure _
    | some no =>
      obtain ⟨hyes, hno⟩ := strictly_and hs
      refine hP.bind (hP.eval _) fun b => ?_
      cases b with
      | true => exact yes.record_passes hP h fuel none hyes
      | false => exact no.record_passes hP h fuel none hno
  | whileLoop test body => exact hP.whileTrue (hP.eval _) (body.record_passes hP h fuel none hs)
  | doWhile body => exact hP.untilFalse (hP.eval _) (body.record_passes hP h fuel none hs)
  | forLoop init test update body =>
    obtain ⟨hinit, hbody⟩ := strictly_and hs
    refine hP.bind (recordStart_passes hP h fuel init hinit) fun _ => ?_
    exact hP.counting (hP.eval _) (hP.eval _) (body.record_passes hP h fuel none hbody)
  | forEach var iterable body =>
    refine hP.bind (hP.eval _) fun source => hP.bind (hP.eval _) fun iterator => ?_
    refine hP.whileTrue (hP.eval _) (hP.bind (hP.eval _) fun v => hP.bind (hP.eval _) fun _ => ?_)
    exact body.record_passes hP h fuel none hs
  | switch selector cases =>
    refine hP.bind (hP.eval _) fun v => hP.bind (hP.eval _) fun n => ?_
    cases n with
    | none => exact hP.pure _
    | some =>
      exact hP.fallThrough fun body hbody =>
        recordCases_passes hP h fuel cases hs body (mem_of_mem_drop hbody)
  | tryCatch resources body catches final =>
    obtain ⟨hrest, hcatches⟩ := strictly_and hs
    obtain ⟨hheads, hbody⟩ := strictly_and hrest
    have hbodies := recordAll_passes hP h fuel body hbody
    have hhandlers := recordHandlers_passes hP h fuel catches hcatches
    cases final with
    | none =>
      refine hP.tryWith (fun hstrict => ⟨?_, rfl⟩) hbodies hhandlers fun c hc => by cases hc
      exact isEmpty_iff.mp (Bool.and_eq_true_iff.mp (hheads hstrict)).1
    | some final =>
      -- final code counts only if the property is not strict
      have hfinal : strict = true → False := fun hstrict =>
        Bool.false_ne_true (Bool.and_eq_true_iff.mp (hheads hstrict)).2
      refine hP.tryWith (fun hstrict => (hfinal hstrict).elim) hbodies hhandlers fun c hc => ?_
      cases hc
      exact recordAll_passes hP h fuel final fun hstrict => (hfinal hstrict).elim
  | labeled own body =>
    exact hP.bind (body.record_passes hP h fuel (some own) hs) fun _ => hP.pure _
  | synchronized e body =>
    exact hP.bind (hP.eval _) fun _ => hP.underLock (recordAll_passes hP h fuel body hs)
  | _ => exact hP.eval _

theorem recordAll_passes (hP : r.Passes strict P) (h : Host) (fuel : Nat) (ss : List Stmt)
    (hs : strict = true → keepsFaultsAll ss = true) : P _ (recordAll r h fuel ss) := by
  cases ss with
  | nil => exact hP.pure _
  | cons s ss =>
    obtain ⟨hs, hss⟩ := strictly_and hs
    refine hP.bind (s.record_passes hP h fuel none hs) fun c => ?_
    cases c with
    | normal => exact recordAll_passes hP h fuel ss hss
    | jump => exact hP.pure _

theorem recordStart_passes (hP : r.Passes strict P) (h : Host) (fuel : Nat) (ss : List Stmt)
    (hs : strict = true → keepsFaultsAll ss = true) : P _ (recordStart r h fuel ss) := by
  cases ss with
  | nil => exact hP.pure _
  | cons s ss =>
    obtain ⟨hs, hss⟩ := strictly_and hs
    refine hP.bind (s.record_passes hP h fuel none hs) fun _ => ?_
    exact recordStart_passes hP h fuel ss hss

theorem recordCases_passes (hP : r.Passes strict P) (h : Host) (fuel : Nat) (cs : List SwitchCase)
    (hs : strict = true → keepsFaultsCases cs = true) :
    ∀ body ∈ recordCases r h fuel cs, P _ body := by
  cases cs with
  | nil => exact forall_mem_nil _
  | cons c cs =>
    obtain ⟨labels, isDefault, body⟩ := c
    obtain ⟨hbody, hcs⟩ := strictly_and hs
    exact forall_mem_cons.mpr
      ⟨recordAll_passes hP h fuel body hbody, recordCases_passes hP h fuel cs hcs⟩

theorem recordHandlers_passes (hP : r.Passes strict P) (h : Host) (fuel : Nat)
    (cs : List CatchClause) (hs : strict = true → keepsFaultsCatches cs = true) :
    ∀ c ∈ recordHandlers r h fuel cs, P _ c.body := by
  cases cs with
  | nil => exact forall_mem_nil _
  | cons c cs =>
    obtain ⟨param, types, body⟩ := c
    obtain ⟨hbody, hcs⟩ := strictly_and hs
    exact forall_mem_cons.mpr
      ⟨recordAll_passes hP h fuel body hbody, recordHandlers_passes hP h fuel cs hcs⟩

end

end Statements

/-! ## Machines -/

namespace Recorder

variable {ε : Type}

/-- A property goes over to machines all of whose ops are `Good`. -/
structure PassesOps (r : Recorder ε) (strict : Bool) (Good : Op → Prop)
    (P : (α : Type) → Watched ε α → Prop) : Prop extends r.Passes strict P where
  own : ∀ {α : Type} (c : Run α), P α (r.own c)
  event : ∀ ev, P _ (r.event ev)
  plain : ∀ {s : Stmt}, Good (.plain s) → strict = true → s.keepsFaults = true
  lockedOps : ∀ {e : Engine} {selector : SymbolId} {x : Expr} {body : List Op},
    Good (.synchronized x body) → P _ (recordOps r e selector body) →
    P _ (r.underLock Flow.suspends (recordOps r e selector body))
  guardRound : ∀ {e : Engine} {g : GuardFields} {selector : SymbolId}
    {machine : Watched ε (Option Value)}, P _ machine → P _ (r.guardRound e g selector machine)

variable {r : Recorder ε} {strict : Bool} {Good : Op → Prop}
  {P : (α : Type) → Watched ε α → Prop} {states : Nat → Option (Watched ε Flow)}

theorem PassesOps.enterState (hP : r.PassesOps strict Good P)
    (hstates : ∀ n, ∀ c ∈ states n, P _ c) (selector : SymbolId) (number : Int) :
    P _ (r.enterState selector states number) := by
  unfold Recorder.enterState
  cases hbody : stateOf? states number with
  | none => exact hP.own _
  | some body =>
    have hstate : P _ body := by
      unfold stateOf? at hbody
      split at hbody
      · exact hstates _ body hbody
      · cases hbody
    refine hP.bind (hP.event _) fun _ => hP.bind hstate fun flow => ?_
    cases flow with
    | next => exact hP.bind (hP.event _) fun _ => hP.pure _
    | _ => exact hP.pure _

theorem PassesOps.dispatch (hP : r.PassesOps strict Good P)
    (hstates : ∀ n, ∀ c ∈ states n, P _ c) (fuel : Nat) (selector : SymbolId) :
    P _ (r.dispatch fuel selector states) := by
  refine hP.loop (fun b => ?_) fuel none
  cases b with
  | some number => exact hP.enterState hstates selector number
  | none =>
    refine hP.bind (hP.own _) fun number => ?_
    split
    · exact hP.pure _
    · exact hP.enterState hstates selector _

end Recorder

section Machines

variable {ε : Type} {r : Recorder ε} {strict : Bool} {Good : Op → Prop}
  {P : (α : Type) → Watched ε α → Prop}

mutual

theorem Op.record_passes (hP : r.PassesOps strict Good P) {op : Op} (hop : op.Every Good)
    (e : Engine) (selector : SymbolId) : P _ (op.record r e selector) := by
  cases op with
  | plain s =>
    exact hP.bind (s.record_passes hP.toPasses e.host e.fuel none (hP.plain hop)) fun _ =>
      hP.eval _
  | assign =>
    refine hP.bind (hP.eval _) fun v => hP.bind (hP.event _) fun _ => ?_
    exact hP.bind (hP.lift _) fun _ => hP.pure _
  | clear | finish =>
    exact hP.bind (hP.event _) fun _ => hP.bind (hP.lift _) fun _ => hP.pure _
  | setState | jump =>
    exact hP.bind (hP.event _) fun _ => hP.bind (hP.own _) fun _ => hP.pure _
  | yield => exact hP.bind (hP.eval _) fun _ => hP.pure _
  | cond test yes no =>
    refine hP.bind (hP.eval _) fun b => ?_
    cases b with
    | true => exact recordOps_passes hP hop.2.1 e selector
    | false => exact recordOps_passes hP hop.2.2 e selector
  | switch =>
    refine hP.bind (hP.eval _) fun v => hP.bind (hP.eval _) fun arm => ?_
    cases arm with
    | none => exact hP.pure _
    | some => exact hP.bind (hP.event _) fun _ => hP.bind (hP.own _) fun _ => hP.pure _
  | synchronized =>
    exact hP.bind (hP.eval _) fun _ => hP.lockedOps hop.1 (recordOps_passes hP hop.2 e selector)
  | guarded machine =>
    obtain ⟨id, own, states⟩ := machine
    have hmachine : P _ (Machine.record r e (.mk id own states)) :=
      Machine.record_passes hP hop.2 e
    exact hP.repeatUntil (hP.guardRound hmachine) e.fuel
  | rethrow =>
    refine hP.bind (hP.lift _) fun failure => hP.bind (hP.event _) fun _ => ?_
    split
    · exact hP.pure _
    · exact hP.eval _

theorem recordOps_passes (hP : r.PassesOps strict Good P) {ops : List Op} (hops : EveryOp Good ops)
    (e : Engine) (selector : SymbolId) : P _ (recordOps r e selector ops) := by
  cases ops with
  | nil => exact hP.pure _
  | cons =>
    refine hP.bind (Op.record_passes hP hops.1 e selector) fun flow => ?_
    cases flow with
    | next => exact recordOps_passes hP hops.2 e selector
    | _ => exact hP.pure _

theorem recordState_passes (hP : r.PassesOps strict Good P) {states : List MachineState}
    (hstates : EveryState Good states) (e : Engine) (selector : SymbolId) (n : Nat) :
    ∀ c ∈ recordState r e selector states n, P _ c := by
  cases states with
  | nil =>
    intro c hc
    cases hc
  | cons state states =>
    obtain ⟨id, ops⟩ := state
    cases n with
    | zero =>
      intro c hc
      cases hc
      exact recordOps_passes hP hstates.1 e selector
    | succ n => exact recordState_passes hP hstates.2 e selector n

/-- What passes goes over to machines. -/
theorem Machine.record_passes (hP : r.PassesOps strict Good P) {m : Machine} (hm : m.Every Good)
    (e : Engine) : P _ (m.record r e) := by
  obtain ⟨id, selector, states⟩ := m
  exact hP.dispatch (recordState_passes hP hm e selector) e.fuel selector

end

end Machines

/-! ## Properties that do not look at results -/

namespace Recorder

variable {ε : Type} {r : Recorder ε} {P : (α : Type) → Watched ε α → Prop}

/-- A property that goes over to sequences and to attempts. -/
structure Attempts (r : Recorder ε) (P : (α : Type) → Watched ε α → Prop) : Prop
    extends Modular P where
  eval : ∀ {α : Type} (c : Run α), P α (r.eval c)
  attempt : ∀ {α : Type} {c : Watched ε α}, P α c → P _ c.attempt

namespace Attempts

variable (hP : r.Attempts P) {h : Host} {handlers : List (Handling ε)}
  {resources : List LocalDecl} {body : Watched ε Completion}
  {final : Option (Watched ε Completion)}
include hP

theorem handle (hhandlers : ∀ c ∈ handlers, P _ c.body) (result : Except Fault Completion) :
    P _ (r.handle handlers result) := by
  cases result with
  | ok => exact hP.pure _
  | error =>
    rw [Recorder.handle]
    split
    · refine hP.bind (hP.lift _) fun failure => ?_
      cases hfind : handlers.find? fun c => failure.isAnyOf c.types with
      | none => exact hP.pure _
      | some c =>
        have hbody := hhandlers c (mem_of_find?_eq_some hfind)
        exact hP.bind (hP.eval _) fun _ => hP.attempt hbody
    · exact hP.pure _

/-- A try without resources and final code. -/
theorem handleOnly (hbody : P _ body) (hhandlers : ∀ c ∈ handlers, P _ c.body) :
    P _ (r.tryWith h [] body handlers none) := by
  have hresources : P _ (r.withResources h [] body) := by
    show P _ (body.attempt >>= fun result => pure result >>= fun result =>
      liftM (ofResult result : Run Completion))
    exact hP.bind (hP.attempt hbody) fun _ => hP.bind (hP.pure _) fun _ => hP.lift _
  refine hP.bind (hP.attempt hresources) fun result => ?_
  exact hP.bind (hP.handle hhandlers result) fun _ => hP.lift _

theorem openAll (ds : List LocalDecl) (opened : List Value) : P _ (r.openAll h ds opened) := by
  induction ds generalizing opened with
  | nil => exact hP.pure _
  | cons d ds ih =>
    refine hP.bind (hP.attempt (hP.eval _)) fun result => ?_
    cases result with
    | ok => exact hP.bind (hP.eval _) fun _ => ih _
    | error => exact hP.pure _

theorem closeAll (hraising : ∀ result f, P _ (r.raising result f))
    (result : Except Fault Completion) (vs : List Value) : P _ (r.closeAll h result vs) := by
  induction vs generalizing result with
  | nil => exact hP.pure _
  | cons v vs ih =>
    rw [Recorder.closeAll]
    split
    · exact ih result
    · refine hP.bind (hP.attempt (hP.eval _)) fun closed => ?_
      cases closed with
      | ok => exact ih result
      | error =>
        exact hP.bind (hraising _ _) fun failure => hP.bind (hP.lift _) fun result => ih result

theorem tryWith (hraising : ∀ result f, P _ (r.raising result f))
    (hreplacing : ∀ result c, P _ c → P _ (r.replacing result c)) (hbody : P _ body)
    (hhandlers : ∀ c ∈ handlers, P _ c.body) (hfinal : ∀ c ∈ final, P _ c) :
    P _ (r.tryWith h resources body handlers final) := by
  have hresources : P _ (r.withResources h resources body) := by
    refine hP.bind (hP.openAll resources []) fun opened => ?_
    obtain ⟨opened, stopped⟩ := opened
    cases stopped with
    | some =>
      refine hP.bind (hP.pure _) fun result => ?_
      exact hP.bind (hP.closeAll hraising result opened) fun _ => hP.lift _
    | none =>
      refine hP.bind (hP.attempt hbody) fun result => ?_
      exact hP.bind (hP.closeAll hraising result opened) fun _ => hP.lift _
  refine hP.bind (hP.attempt hresources) fun result => hP.bind (hP.handle hhandlers result) ?_
  intro result
  cases final with
  | none => exact hP.lift _
  | some final =>
    refine hP.bind (hreplacing result final (hfinal final rfl)) fun c => ?_
    cases c with
    | normal => exact hP.lift _
    | jump => exact hP.pure _

variable (hevent : ∀ ev, P _ (r.event ev)) (hown : ∀ {α : Type} (c : Run α), P α (r.own c))

include hevent in
theorem closeFields (primary : Option Value) (xs : List SymbolId) :
    P _ (r.closeFields h primary xs) := by
  induction xs generalizing primary with
  | nil => exact hP.pure _
  | cons x xs ih =>
    refine hP.bind (hP.lift _) fun v => ?_
    split
    · exact ih primary
    · refine hP.bind (hP.attempt (hP.eval _)) fun closed => ?_
      cases closed with
      | ok => exact hP.bind (hevent _) fun _ => ih primary
      | error =>
        refine hP.bind (hP.lift _) fun failure => hP.bind (hevent _) fun _ => ?_
        cases primary with
        | some p => exact hP.bind (hP.lift _) fun _ => ih (some p)
        | none => exact ih (some failure)

include hevent hown

theorem enterHandler (tags : TagTable) (selector : SymbolId) (g : GuardFields) (failure : Value) :
    P _ (r.enterHandler tags selector g failure) := by
  refine hP.bind (hP.lift _) fun _ => ?_
  split
  · refine hP.bind (hP.lift _) fun _ => hP.bind (hP.lift _) fun _ => ?_
    exact hP.bind (hevent _) fun _ => hP.bind (hown _) fun _ => hP.pure _
  · exact hP.bind (hevent _) fun _ => hP.bind (hP.lift _) fun _ => hP.pure _

theorem guardRound {e : Engine} {g : GuardFields} {selector : SymbolId}
    {machine : Watched ε (Option Value)} (hmachine : P _ machine) :
    P _ (r.guardRound e g selector machine) := by
  refine hP.bind (hown _) fun handling => hP.bind (hP.attempt hmachine) fun stay => ?_
  rcases stay with f | (_ | v)
  · refine hP.bind (hP.lift _) fun failure => hP.bind (hevent _) fun _ => ?_
    split
    · exact hP.bind (hevent _) fun _ => hP.bind (hP.lift _) fun _ => hP.pure _
    · exact hP.bind (hP.closeFields hevent _ _) fun _ => hP.enterHandler hevent hown ..
  · refine hP.bind (hevent _) fun _ => ?_
    split
    · exact hP.pure _
    · refine hP.bind (hP.closeFields hevent _ _) fun closed => ?_
      cases closed with
      | none => exact hP.pure _
      | some => exact hP.enterHandler hevent hown ..
  · exact hP.bind (hevent _) fun _ => hP.pure _

end Attempts

end Recorder

/-! ## Statements without events -/

namespace Watched

/-- Nothing is recorded. -/
def Silent {ε α : Type} (c : Watched ε α) : Prop := ∀ m, (c m).1 = []

theorem silent_eq {ε α : Type} {c : Watched ε α} (h : c.Silent) : c = liftM (erase c) :=
  funext fun m => Prod.ext (h m) rfl

theorem silent_attempts : Recorder.events.Attempts fun _ => Silent where
  lift _ _ := rfl
  eval _ _ := rfl
  attempt h := h
  bind {_ _ c k} hc hk m := by
    show (Watched.bind c k m).1 = []
    have hm := hc m
    unfold Watched.bind
    rcases hr : c m with ⟨events, ⟨a, m'⟩ | ⟨e, m'⟩⟩
    all_goals
      rw [hr] at hm
      simp only at hm ⊢
      rw [hm]
    exact hk a m'

theorem silent_passes : Recorder.events.Passes false fun _ => Silent where
  toModular := silent_attempts.toModular
  eval := silent_attempts.eval
  underLock h := h
  tryWith _ := silent_attempts.tryWith (fun _ _ _ => rfl) fun _ _ h => h

end Watched

/-- Machines have no events while they run a plain statement. -/
theorem Op.record_plain (e : Engine) (selector : SymbolId) (s : Stmt) :
    (Op.plain s).record .events e selector =
      (do (afterPlain s.location (← s.exec e.host e.fuel none) : Run Flow)) := by
  have hsilent := s.record_passes silent_passes e.host e.fuel none nofun
  rw [Op.record, silent_eq hsilent, s.erase_record]
  rfl

end Resumable
