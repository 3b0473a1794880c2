import Resumable.Proofs.Alarm

/-!
# Plain statements

A statement that need not be lowered is run as it stands, so nothing may leave it.

* `Host.Allows` are the faults that can be raised where no return is run; `Expr.eval_allowed` says
  that evaluating an expression raises no others;
* `Watched.Meets` says of a run with alarms what faults it raises and what it gives, and there is
  one rule for each way to build a run;
* `Stmt.meets` follows the enclosures with which statements are looked at: a jump that a statement
  completes with is one that something around it takes, and a continue with a label is one that no
  loop inside the statement has taken.
-/

namespace Resumable

open List

open Recorder (alarms)

/-! ## Faults of computations -/

/-- Whether the fault says that a return was run. -/
def Fault.isReturn : Fault → Bool
  | breach (.plainReturn _) => true
  | _ => false

/-- Asking the host for something can end with the fault. -/
inductive Host.Raises (h : Host) (f : Fault) : Prop where
  /-- a function raises it -/
  | call {name : String} {args : List Value} {w w' : World}
    (hrun : h.call name args w = .error (.fault f) w')
  /-- asking for more values raises it -/
  | hasNext {id : Nat} {w w' : World} (hrun : h.hasNext id w = .error (.fault f) w')
  /-- asking for a value raises it -/
  | next {id : Nat} {w w' : World} (hrun : h.next id w = .error (.fault f) w')

/-- The fault is not that of a return, unless it comes from the host. -/
def Host.Allows (h : Host) (f : Fault) : Prop := f.isReturn = true → h.Raises f

/-- A computation stops with no fault but those that are allowed. -/
def Allowed {σ α : Type} (h : Host) (c : EStateM Halt σ α) : Prop :=
  ∀ m f m', c m = .error (.fault f) m' → h.Allows f

section Faults

variable {σ α β : Type} {h : Host}

theorem allows_thrown (failure : Value) : h.Allows (.thrown failure) := nofun

theorem allows_mismatch (cause : Mismatch) : h.Allows (.mismatch cause) := nofun

theorem allowed_pure (a : α) : Allowed h (pure a : EStateM Halt σ α) := nofun

theorem allowed_throw {f : Fault} (hf : h.Allows f) :
    Allowed h (throw (.fault f) : EStateM Halt σ α) := by
  intro m f' m' hrun
  cases hrun
  exact hf

/-- A computation that goes on with another one. -/
theorem Allowed.bind {c : EStateM Halt σ α} {k : α → EStateM Halt σ β} (hc : Allowed h c)
    (hk : ∀ a, Allowed h (k a)) : Allowed h (c >>= k) := by
  intro m f m' hrun
  change EStateM.bind c k m = _ at hrun
  unfold EStateM.bind at hrun
  cases hm : c m with
  | ok a m₁ =>
    rw [hm] at hrun
    exact hk a m₁ f m' hrun
  | error =>
    rw [hm] at hrun
    cases hrun
    exact hc m f m' hm

/-- An effect on the world, as a step of a run. -/
theorem Allowed.ofEffect {c : Effect α} (hc : Allowed h c) : Allowed h (Run.ofEffect c) := by
  intro m f m' hrun
  unfold Run.ofEffect at hrun
  cases hw : c m.world with
  | ok =>
    rw [hw] at hrun
    cases hrun
  | error e w =>
    rw [hw] at hrun
    cases hrun
    exact hc m.world f w hw

theorem allowed_asInt (v : Value) : Allowed h (ofResult v.asInt : EStateM Halt σ Int64) := by
  cases v with
  | int n => exact allowed_pure n
  | _ => exact allowed_throw (allows_mismatch _)

theorem allowed_asBool (v : Value) : Allowed h (ofResult v.asBool : EStateM Halt σ Bool) := by
  cases v with
  | bool b => exact allowed_pure b
  | _ => exact allowed_throw (allows_mismatch _)

/-- An exception is no return. -/
theorem allowed_raise (className message : String) :
    Allowed h (World.raise className message : Effect α) :=
  Allowed.bind nofun fun _ => allowed_throw (allows_thrown _)

theorem allowed_load (x : Ident) : Allowed h (Run.load x) := by
  refine Allowed.bind nofun fun m => ?_
  split
  · exact allowed_pure _
  · exact allowed_throw nofun

theorem allowed_store (x : Ident) (v : Value) : Allowed h (Run.store x v) := by
  unfold Run.store
  split
  · exact nofun
  · exact allowed_throw nofun

end Faults

/-! ## Methods -/

section Methods

variable {α : Type} {h : Host}

/-- A method that is called with the wrong number of arguments is a mismatch. -/
theorem withoutArgs_allowed (name : String) (args : List Value) {x : Effect α} (hx : Allowed h x) :
    Allowed h (withoutArgs name args x) := by
  unfold withoutArgs
  split
  · exact hx
  · exact allowed_throw nofun

theorem withArg_allowed (name : String) (args : List Value) {f : Value → Effect α}
    (hf : ∀ v, Allowed h (f v)) : Allowed h (withArg name args f) := by
  unfold withArg
  split
  · exact hf _
  · exact allowed_throw nofun

namespace Value

theorem unknownMethod_allowed (v : Value) (name : String) : Allowed h (unknownMethod v name) :=
  allowed_throw nofun

theorem itemAt_allowed (items : List Value) (index : Int64) : Allowed h (itemAt items index) := by
  unfold itemAt
  split
  · split
    · exact allowed_pure _
    · exact allowed_raise _ _
  · exact allowed_raise _ _

theorem listMethod_allowed (items : List Value) (name : String) (args : List Value) :
    Allowed h (listMethod items name args) := by
  unfold listMethod
  split
  · exact withoutArgs_allowed _ _ nofun
  · exact withoutArgs_allowed _ _ (allowed_pure _)
  · exact withoutArgs_allowed _ _ (allowed_pure _)
  · exact withArg_allowed _ _ fun v => (allowed_asInt v).bind fun i => itemAt_allowed items i
  · exact unknownMethod_allowed _ _

/-- Iterators belong to the host. -/
theorem iteratorMethod_allowed (id : Nat) (name : String) (args : List Value) :
    Allowed h (iteratorMethod h id name args) := by
  unfold iteratorMethod
  split
  · exact withoutArgs_allowed _ _ (allowed_pure _)
  · exact withoutArgs_allowed _ _
      (Allowed.bind (fun _ _ _ hrun _ => .hasNext hrun) fun _ => allowed_pure _)
  · exact withoutArgs_allowed _ _ fun _ _ _ hrun _ => .next hrun
  · exact unknownMethod_allowed _ _

theorem textMethod_allowed (s : String) (name : String) (args : List Value) :
    Allowed h (textMethod s name args) := by
  unfold textMethod
  split
  · exact withoutArgs_allowed _ _ (allowed_pure _)
  · exact withoutArgs_allowed _ _ (allowed_pure _)
  · exact unknownMethod_allowed _ _

theorem addSuppressed_allowed (primary failure : Value) :
    Allowed h (World.addSuppressed primary failure) := by
  unfold World.addSuppressed
  split
  · exact nofun
  · exact allowed_pure _

theorem exceptionMethod_allowed (e : ExceptionRef) (name : String) (args : List Value) :
    Allowed h (exceptionMethod e name args) := by
  unfold exceptionMethod
  split
  · exact withoutArgs_allowed _ _ (allowed_pure _)
  · exact withoutArgs_allowed _ _ (Allowed.bind nofun fun _ => allowed_pure _)
  · exact withArg_allowed _ _ fun v => (addSuppressed_allowed _ v).bind fun _ => allowed_pure _
  · exact unknownMethod_allowed _ _

theorem closeResource_allowed (r : ResourceRef) : Allowed h (World.closeResource r) := by
  refine Allowed.bind nofun fun w => ?_
  split
  · exact allowed_pure _
  · refine Allowed.bind nofun fun _ => Allowed.bind nofun fun _ => ?_
    split
    · exact allowed_raise _ _
    · exact allowed_pure _

theorem resourceMethod_allowed (r : ResourceRef) (name : String) (args : List Value) :
    Allowed h (resourceMethod r name args) := by
  unfold resourceMethod
  split
  · exact withoutArgs_allowed _ _ ((closeResource_allowed r).bind fun _ => allowed_pure _)
  · exact withoutArgs_allowed _ _ (allowed_pure _)
  · exact withoutArgs_allowed _ _ (Allowed.bind nofun fun _ => allowed_pure _)
  · exact unknownMethod_allowed _ _

/-- A method raises no fault of a return but those of the host. -/
theorem invoke_allowed (v : Value) (name : String) (args : List Value) :
    Allowed h (v.invoke h name args) := by
  unfold invoke
  split
  · exact allowed_raise _ _
  · split
    · exact withArg_allowed _ _ fun _ => allowed_pure _
    · exact withoutArgs_allowed _ _ (allowed_pure _)
    · unfold ownMethod
      split
      · exact listMethod_allowed _ _ _
      · exact iteratorMethod_allowed _ _ _
      · exact textMethod_allowed _ _ _
      · exact exceptionMethod_allowed _ _ _
      · exact resourceMethod_allowed _ _ _
      · exact unknownMethod_allowed _ _

end Value

end Methods

/-! ## Expressions -/

section Expressions

variable {h : Host}

theorem reach_all (us ws : List SymbolId) : Reach (fun _ => True) (fun _ => True) us ws :=
  ⟨fun _ _ => trivial, fun _ _ => trivial⟩

/-- To raise no fault of a return goes over from the steps of an evaluation to the whole. -/
theorem allowed_congruence (h : Host) : Congruence h (fun _ => True) (fun _ => True) fun _ c _ =>
    Allowed h c where
  pure := allowed_pure
  bind := Allowed.bind
  mismatch _ := allowed_throw (allows_mismatch _)
  raise _ _ := (allowed_raise _ _).ofEffect
  call _ _ := Allowed.ofEffect fun _ _ _ hrun _ => .call hrun
  invoke v name vs := (v.invoke_allowed name vs).ofEffect
  load x _ := allowed_load x
  store x _ := allowed_store x

/-- Evaluating an expression raises no fault of a return but those of the host. -/
theorem Expr.eval_allowed (e : Expr) : Allowed h (e.eval h) :=
  (allowed_congruence h).eval e (reach_all _ _)

theorem LocalDecl.init_allowed (d : LocalDecl) (default : Value) :
    Allowed h (d.init.elim (pure default) (Expr.eval h)) :=
  (allowed_congruence h).init d.init default (reach_all _ _)

theorem raiseValue_allowed (v : Value) : Allowed h (raiseValue v) := by
  unfold raiseValue
  split
  · exact allowed_throw (allows_thrown _)
  · exact (allowed_raise _ _).ofEffect
  · exact allowed_throw (allows_mismatch _)

end Expressions

/-! ## Runs with alarms -/

namespace Watched

variable {result : Except Fault Completion} {handlers : List (Handling Alarm)}
  {resources : List LocalDecl}
  {test : Watched Alarm Bool}

/-- All faults of a run are allowed, and what it gives has the property. -/
structure Meets {α : Type} (h : Host) (Q : α → Prop) (c : Watched Alarm α) : Prop where
  /-- so are the faults that were raised on the way -/
  raises : ∀ m f, .raised f ∈ (c m).1 → h.Allows f
  /-- and the one that it ends with -/
  fails : ∀ m f m', (c m).2 = .error (.fault f) m' → h.Allows f
  /-- what it gives otherwise has the property -/
  gives : ∀ m a m', (c m).2 = .ok a m' → Q a

/-- A result has the property, or is a fault that is allowed. -/
def Answers {α : Type} (h : Host) (Q : α → Prop) : Except Fault α → Prop
  | .ok a => Q a
  | .error f => h.Allows f

variable {α β : Type} {h : Host} {Q : α → Prop} {R : β → Prop}

theorem meets_pure {a : α} (ha : Q a) : Meets h Q (pure a : Watched Alarm α) where
  raises _ _ := nofun
  fails _ _ _ := nofun
  gives m b m' hrun := by
    cases hrun
    exact ha

/-- A step that is not recorded. -/
theorem meets_lift {c : Run α} (hc : Allowed h c) (hQ : ∀ m a m', c m = .ok a m' → Q a) :
    Meets h Q (liftM c : Watched Alarm α) where
  raises _ _ := nofun
  fails := hc
  gives := hQ

/-- The fault of a recorded step is the one that it ends with. -/
theorem meets_recorded {c : Run α} (hc : Allowed h c) (hQ : ∀ m a m', c m = .ok a m' → Q a) :
    Meets h Q (alarms.eval c) where
  raises m f hf := by
    simp only [alarms, logFault] at hf
    split at hf
    · next f' m' hm =>
      cases mem_singleton.mp hf
      exact hc m f m' hm
    · cases hf
  fails m f m' hrun := hc m f m' ((congrFun (erase_logFault _ c) m).symm.trans hrun)
  gives m a m' hrun := hQ m a m' ((congrFun (erase_logFault _ c) m).symm.trans hrun)

/-- What a recorded step gives may be anything. -/
theorem meets_any {c : Run α} (hc : Allowed h c) :
    Meets h (fun _ => True) (alarms.eval c) :=
  meets_recorded hc fun _ _ _ _ => trivial

variable {c : Watched Alarm α} {body : Watched Alarm Completion}

theorem Meets.mono {Q' : α → Prop} (hc : Meets h Q c) (hQ : ∀ a, Q a → Q' a) : Meets h Q' c :=
  ⟨hc.raises, hc.fails, fun m a m' hrun => hQ a (hc.gives m a m' hrun)⟩

/-- The second run starts from what the first one gives, if it gives anything. -/
theorem Meets.bind {k : α → Watched Alarm β} (hc : Meets h Q c)
    (hk : ∀ a, Q a → Meets h R (k a)) : Meets h R (c >>= k) := by
  have hrun : ∀ m, (∃ e m', (c m).2 = .error e m' ∧ (c >>= k) m = ((c m).1, .error e m')) ∨
      ∃ a m', (c m).2 = .ok a m' ∧ (c >>= k) m = ((c m).1 ++ (k a m').1, (k a m').2) := by
    intro m
    show (∃ e m', _ ∧ Watched.bind c k m = _) ∨ ∃ a m', _ ∧ Watched.bind c k m = _
    unfold Watched.bind
    rcases c m with ⟨alarms, ⟨a, m'⟩ | ⟨e, m'⟩⟩
    · exact .inr ⟨a, m', rfl, rfl⟩
    · exact .inl ⟨e, m', rfl, rfl⟩
  -- the first run stops, or the second one goes on behind its alarms
  constructor
  · intro m f hf
    rcases hrun m with ⟨e, m', hm, heq⟩ | ⟨a, m', hm, heq⟩
    all_goals rw [heq] at hf
    · exact hc.raises m f hf
    · rcases mem_append.mp hf with hf | hf
      · exact hc.raises m f hf
      · exact (hk a (hc.gives m a m' hm)).raises m' f hf
  · intro m f m'' hf
    rcases hrun m with ⟨e, m', hm, heq⟩ | ⟨a, m', hm, heq⟩
    all_goals rw [heq] at hf
    · cases hf
      exact hc.fails m f m'' hm
    · exact (hk a (hc.gives m a m' hm)).fails m' f m'' hf
  · intro m b m'' hb
    rcases hrun m with ⟨e, m', hm, heq⟩ | ⟨a, m', hm, heq⟩
    all_goals rw [heq] at hb
    · cases hb
    · exact (hk a (hc.gives m a m' hm)).gives m' b m'' hb

/-- What is caught is a result or a fault that is allowed. -/
theorem Meets.attempt (hc : Meets h Q c) : Meets h (Answers h Q) (attempt c) := by
  have hrun : ∀ m, (Watched.attempt c m).2 = Run.attempt (fun _ => (c m).2) m := fun _ => rfl
  constructor
  · exact hc.raises
  · intro m f m' hf
    rw [hrun] at hf
    unfold Run.attempt at hf
    split at hf
    all_goals cases hf
  · intro m r m' hr
    rw [hrun] at hr
    unfold Run.attempt at hr
    split at hr
    · next a m₁ hm =>
      cases hr
      exact hc.gives m a m' hm
    · next f m₁ hm =>
      cases hr
      exact hc.fails m f m' hm
    · cases hr

/-- By induction on the fuel: each round gives what the loop may give, or goes on. -/
theorem meets_loop {step : β → Watched Alarm (β ⊕ α)}
    (hstep : ∀ b, Meets h (fun r => ∀ a, r = .inr a → Q a) (step b)) (fuel : Nat) (b : β) :
    Meets h Q (loop step fuel b) := by
  induction fuel generalizing b with
  | zero => exact ⟨fun _ _ => nofun, fun _ _ _ => nofun, fun _ _ _ => nofun⟩
  | succ fuel ih =>
    rw [loop_succ]
    refine (hstep b).bind fun r hr => ?_
    cases r with
    | inl b => exact ih b
    | inr a => exact meets_pure (hr a rfl)

theorem meets_repeatUntil {step : Watched Alarm (Option α)}
    (hstep : Meets h (fun r => ∀ a, r = some a → Q a) step) (fuel : Nat) :
    Meets h Q (repeatUntil fuel step) := by
  refine meets_loop (fun _ => hstep.bind fun r hr => ?_) fuel ()
  cases r with
  | none => exact meets_pure nofun
  | some a =>
    refine meets_pure fun b hb => ?_
    cases hb
    exact hr a rfl

theorem meets_ofResult {r : Except Fault α} (hr : Answers h Q r) :
    Meets h Q (liftM (ofResult r : Run α) : Watched Alarm α) := by
  cases r with
  | ok => exact meets_pure hr
  | error =>
    refine meets_lift (allowed_throw hr) fun m a m' hrun => ?_
    cases hrun

/-! ## Control -/

variable {S : Completion → Prop} {T : Completion → Prop} {fuel : Nat} {label : Option String}

theorem meets_stop {c : Completion} (hc : T c) :
    Meets h (fun r => ∀ c', r = some c' → T c')
      (pure (some c) : Watched Alarm (Option Completion)) := by
  refine meets_pure ?_
  rintro _ ⟨⟩
  exact hc

/-- A loop gives what the end of a round gives, or completes normally. -/
theorem meets_whileTrue (htest : Meets h (fun _ => True) test)
    (hbody : Meets h S body) (hnormal : T .normal)
    (hend : ∀ c c', S c → c.endOfLoop? label = some c' → T c') :
    Meets h T (whileTrue fuel label test body) := by
  refine meets_repeatUntil (htest.bind fun b _ => ?_) fuel
  cases b with
  | true => exact hbody.bind fun c hc => meets_pure fun c' => hend c c' hc
  | false => exact meets_stop hnormal

theorem meets_untilFalse (htest : Meets h (fun _ => True) test)
    (hbody : Meets h S body) (hnormal : T .normal)
    (hend : ∀ c c', S c → c.endOfLoop? label = some c' → T c') :
    Meets h T (untilFalse fuel label body test) := by
  refine meets_repeatUntil (hbody.bind fun c hc => ?_) fuel
  cases hround : c.endOfLoop? label with
  | some c' => exact meets_stop (hend c c' hc hround)
  | none =>
    refine htest.bind fun b _ => ?_
    cases b with
    | true => exact meets_pure nofun
    | false => exact meets_stop hnormal

theorem meets_counting {update : Watched Alarm Unit}
    (htest : Meets h (fun _ => True) test) (hupdate : Meets h (fun _ => True) update)
    (hbody : Meets h S body) (hnormal : T .normal)
    (hend : ∀ c c', S c → c.endOfLoop? label = some c' → T c') :
    Meets h T (counting fuel label test update body) := by
  refine meets_repeatUntil (htest.bind fun b _ => ?_) fuel
  cases b with
  | false => exact meets_stop hnormal
  | true =>
    refine hbody.bind fun c hc => ?_
    cases hround : c.endOfLoop? label with
    | some c' => exact meets_stop (hend c c' hc hround)
    | none => exact hupdate.bind fun _ _ => meets_pure nofun

/-- A switch takes breaks without a label. -/
theorem meets_fallThrough {bodies : List (Watched Alarm Completion)}
    (hbodies : ∀ body ∈ bodies, Meets h S body) (hnormal : T .normal)
    (hend : ∀ c, S c → c ≠ .jump (.brk none) → T c) : Meets h T (fallThrough bodies) := by
  induction bodies with
  | nil => exact meets_pure hnormal
  | cons body bodies ih =>
    obtain ⟨hbody, hbodies⟩ := forall_mem_cons.mp hbodies
    refine hbody.bind fun c hc => ?_
    rcases c with _ | (_ | _) | _
    · exact ih hbodies
    · exact meets_pure hnormal
    · exact meets_pure (hend _ hc nofun)
    · exact meets_pure (hend _ hc nofun)

/-- The fault that stops the opening of resources is that of an initialiser. -/
theorem meets_openAll (ds : List LocalDecl) (opened : List Value) :
    Meets h (fun r => ∀ f, r.2 = some f → h.Allows f) (alarms.openAll h ds opened) := by
  induction ds generalizing opened with
  | nil => exact meets_pure nofun
  | cons d ds ih =>
    refine (meets_any (d.init_allowed .null)).attempt.bind fun r hr => ?_
    cases r with
    | ok v => exact (meets_any (allowed_store d.name v)).bind fun _ _ => ih (v :: opened)
    | error =>
      refine meets_pure fun f' hf => ?_
      cases hf
      exact hr

/-- What a handler catches is raised again only if it cannot be caught. -/
theorem caught_allowed {f : Fault} (hf : h.Allows f) : Allowed h (f.caught : Run Value) := by
  refine Allowed.ofEffect ?_
  cases f with
  | thrown failure => exact allowed_pure failure
  | noSuchElement =>
    intro m f m' hrun
    cases hrun
  | _ => exact allowed_throw hf

theorem meets_raising {f : Fault} (hf : h.Allows f) (result : Except Fault α) :
    Meets h (fun _ => True) (raising result f) := by
  have hcaught : Allowed h (f.caught : Run Value) := caught_allowed hf
  have hrun : ∀ m, (raising result f m).2 = (f.caught : Run Value) m :=
    fun m => congrFun (erase_raising result f) m
  constructor
  · intro m f' hf'
    unfold raising at hf'
    split at hf'
    · cases hf'
    · cases result with
      | ok => cases hf'
      | error => cases mem_singleton.mp hf'
  · exact fun m f' m' hfail => hcaught m f' m' ((hrun m).symm.trans hfail)
  · exact fun _ _ _ _ => trivial

theorem afterCloseFailure_answers (hresult : Answers h S result) (failure : Value) :
    Meets h (Answers h S) (liftM (Run.afterCloseFailure failure result) : Watched Alarm
      (Except Fault Completion)) := by
  cases result with
  | ok => exact meets_pure (allows_thrown failure)
  | error f =>
    cases f with
    | thrown primary =>
      refine meets_lift ((Value.addSuppressed_allowed primary failure).ofEffect.bind
        fun _ => allowed_pure _) ?_
      intro m r m' hrun
      change EStateM.bind (Run.ofEffect (World.addSuppressed primary failure)) _ m = _ at hrun
      unfold EStateM.bind at hrun
      split at hrun
      · cases hrun
        exact allows_thrown primary
      · cases hrun
    | _ => exact meets_pure hresult

/-- Closing resources passes on the result, or a failure to close one. -/
theorem meets_closeAll (hresult : Answers h S result) (vs : List Value) :
    Meets h (Answers h S) (alarms.closeAll h result vs) := by
  induction vs generalizing result with
  | nil => exact meets_pure hresult
  | cons v vs ih =>
    unfold Recorder.closeAll
    split
    · exact ih hresult
    · refine (meets_any (v.invoke_allowed "close" []).ofEffect).attempt.bind fun r hr => ?_
      cases r with
      | ok => exact ih hresult
      | error =>
        exact (meets_raising hr result).bind fun failure _ =>
          (afterCloseFailure_answers hresult failure).bind fun _ hr => ih hr

theorem meets_withResources (hbody : Meets h S body) :
    Meets h S (alarms.withResources h resources body) := by
  refine (meets_openAll resources []).bind fun r hr => ?_
  obtain ⟨opened, stopped⟩ := r
  have hclose : ∀ result, Answers h S result →
      Meets h S (alarms.closeAll h result opened >>=
        fun result => liftM (ofResult result : Run Completion)) :=
    fun result hresult => (meets_closeAll hresult opened).bind fun _ hr => meets_ofResult hr
  cases stopped with
  | some f => exact hclose (.error f) (hr f rfl)
  | none => exact hbody.attempt.bind hclose

/-- Handlers give what their bodies give. -/
theorem meets_handle (hhandlers : ∀ c ∈ handlers, Meets h S c.body) (hresult : Answers h S result) :
    Meets h (Answers h S) (alarms.handle handlers result) := by
  cases result with
  | ok => exact meets_pure hresult
  | error f =>
    rw [Recorder.handle]
    split
    · have hcaught : Meets h (fun _ => True) (liftM (f.caught : Run Value) : Watched Alarm Value) :=
        meets_lift (caught_allowed hresult) fun _ _ _ _ => trivial
      refine hcaught.bind fun failure _ => ?_
      cases hfind : handlers.find? fun c => failure.isAnyOf c.types with
      | none => exact meets_pure hresult
      | some c =>
        exact (meets_any (allowed_store c.param failure)).bind fun _ _ =>
          (hhandlers c (mem_of_find?_eq_some hfind)).attempt
    · exact meets_pure hresult

theorem meets_replacing {c : Watched Alarm Completion} (hc : Meets h S c)
    (result : Except Fault α) : Meets h S (replacing result c) where
  raises m f hf := by
    have hlost : .raised f ∉ lost result := by
      cases result with
      | ok => exact not_mem_nil
      | error => simp [lost]
    have hraises := hc.raises m f
    unfold replacing at hf
    rcases hm : c m with ⟨alarms, ⟨_ | j, m'⟩ | ⟨e, m'⟩⟩
    all_goals
      rw [hm] at hf hraises
      simp only at hf hraises
    · exact hraises hf
    · exact hraises ((mem_append.mp hf).resolve_right hlost)
    · exact hraises ((mem_append.mp hf).resolve_right hlost)
  fails m f m' hrun := hc.fails m f m' ((congrFun (erase_replacing result c) m).symm.trans hrun)
  gives m a m' hrun := hc.gives m a m' ((congrFun (erase_replacing result c) m).symm.trans hrun)

/-- A try gives what its parts give. -/
theorem meets_tryWith {final : Option (Watched Alarm Completion)}
    (hbody : Meets h S body) (hhandlers : ∀ c ∈ handlers, Meets h S c.body)
    (hfinal : ∀ c ∈ final, Meets h S c) :
    Meets h S (alarms.tryWith h resources body handlers final) := by
  refine (meets_withResources hbody).attempt.bind fun result hresult => ?_
  refine (meets_handle hhandlers hresult).bind fun result hresult => ?_
  cases final with
  | none => exact meets_ofResult hresult
  | some final =>
    refine (meets_replacing (hfinal final rfl) result).bind fun c hc => ?_
    cases c with
    | normal => exact meets_ofResult hresult
    | jump => exact meets_pure hc

end Watched

/-! ## Jumps -/

/-- Among the statements, at any depth, a continue has a label that no loop around it carries. -/
def Strays (body : List Stmt) (label : String) : Prop :=
  ∃ path loc, Lies body path (.cont (some label) loc) ∧ ∀ t ∈ path, t.loopLabel? ≠ some label

/-- A completion of one of the statements is no jump but one that what encloses them takes, or a
continue that no loop inside them takes. -/
def Completion.Inside (w : Enclosure) (body : List Stmt) : Completion → Prop
  | .normal => True
  | .jump (.brk none) => w.inLoop = true ∨ w.inSwitch = true
  | .jump (.cont none) => w.inLoop = true
  | .jump (.brk (some label)) => label ∈ w.labels
  | .jump (.cont (some label)) => Strays body label

/-- A completion of the statement, which is not a continue with its own label if the statement is a
loop. -/
def Completion.Behind (w : Enclosure) (label : Option String) (s : Stmt) (c : Completion) : Prop :=
  c.Inside w [s] ∧ (s.isLoop = true → ∀ own, label = some own → c ≠ .jump (.cont (some own)))

section Jumps

variable {w : Enclosure} {body : List Stmt} {s : Stmt} {label : Option String} {c : Completion}

/-- A continue that no loop takes inside a statement, nor the statement itself. -/
theorem Strays.of_children {target : String} (h : Strays s.children target)
    (hs : s.loopLabel? ≠ some target) : Strays [s] target := by
  obtain ⟨path, loc, hlies, hpath⟩ := h
  refine ⟨path ++ [s], loc, (Lies.top mem_cons_self).within hlies, fun t ht => ?_⟩
  rcases mem_append.mp ht with ht | ht
  · exact hpath t ht
  · cases mem_singleton.mp ht
    exact hs

namespace Completion

theorem Inside.mono {body' : List Stmt} (hc : c.Inside w body) (hsub : ∀ t ∈ body, t ∈ body') :
    c.Inside w body' := by
  rcases c with _ | (_ | _) | (_ | target)
  · trivial
  · exact hc
  · exact hc
  · exact hc
  · obtain ⟨path, loc, hlies, hpath⟩ := hc
    exact ⟨path, loc, hlies.mono hsub, hpath⟩

theorem Inside.of_mem {t : Stmt} (hc : c.Inside w [t]) (ht : t ∈ body) : c.Inside w body :=
  hc.mono fun _ hu => mem_singleton.mp hu ▸ ht

/-- What comes out of the parts comes out of a statement that carries no loop. -/
theorem Inside.of_children (hc : c.Inside w s.children) (hs : s.loopLabel? = none) :
    c.Inside w [s] := by
  rcases c with _ | (_ | _) | (_ | target)
  · trivial
  · exact hc
  · exact hc
  · exact hc
  · refine Strays.of_children hc ?_
    rw [hs]
    nofun

/-- A loop takes the jumps without a label and those with its own. -/
theorem Inside.endOfLoop {c' : Completion} {t : Stmt} (hc : c.Inside { w with inLoop := true } [t])
    (ht : t ∈ s.children) (hs : s.loopLabel? = none) (hend : c.endOfLoop? label = some c') :
    c'.Behind w label s := by
  rcases c with _ | (_ | target) | (_ | target)
  · cases hend
  · cases hend
    exact ⟨trivial, fun _ _ _ => nofun⟩
  · cases hend
    refine ⟨?_, fun _ _ _ => by split <;> nofun⟩
    split
    · trivial
    · exact hc
  · cases hend
  · by_cases htakes : takesJump label (some target) = true
    · rw [Completion.endOfLoop?, if_pos htakes] at hend
      cases hend
    · rw [Completion.endOfLoop?, if_neg htakes] at hend
      cases hend
      have hstrays : (jump (.cont (some target))).Inside w [t] := hc
      refine ⟨(hstrays.of_mem ht).of_children hs, ?_⟩
      rintro - own rfl hjump
      cases hjump
      exact htakes (beq_self_eq_true _)

/-- A label takes the breaks with its name. -/
theorem Behind.behindLabel {own : String} {loc : Location}
    (hc : c.Behind { w with labels := own :: w.labels } (some own) s) :
    (c.behindLabel own).Inside w [.labeled own s loc] := by
  obtain ⟨hin, hloop⟩ := hc
  rcases c with _ | (_ | target) | (_ | target)
  · trivial
  · exact hin
  · rw [Completion.behindLabel]
    split
    · trivial
    · next hne => exact (mem_cons.mp hin).resolve_left hne
  · exact hin
  · refine Strays.of_children hin ?_
    rw [Stmt.loopLabel?_labeled]
    split
    · next hs =>
      intro heq
      cases heq
      exact hloop hs own rfl rfl
    · nofun

end Completion

end Jumps

/-! ## Statements -/

section Statements

open Watched Completion

variable {m : Markers} {h : Host} {fuel : Nat}

theorem meets_test (e : Expr) : Meets h (fun _ => True) (alarms.eval (e.test h)) :=
  meets_any ((allowed_congruence h).test e (reach_all _ _))

variable {label : Option String}

/-- A statement without statements inside it completes normally, or not at all. -/
theorem meets_simple {w : Enclosure} {s : Stmt} {c : Run Completion} (hc : Allowed h c)
    (hnormal : ∀ mem a mem', c mem = .ok a mem' → a = .normal) (hs : s.isLoop = false) :
    Meets h (Behind w label s) (alarms.eval c) := by
  refine meets_recorded hc fun mem a mem' hrun =>
    ⟨?_, fun hloop => absurd hloop (by rw [hs]; nofun)⟩
  rw [hnormal mem a mem' hrun]
  trivial

/-- What comes out of the statements inside a statement that is no loop comes out of it. -/
theorem Watched.Meets.of_children {w : Enclosure} {s : Stmt} {c : Watched Alarm Completion}
    (hc : Meets h (Inside w s.children) c) (hlabel : s.loopLabel? = none) (hs : s.isLoop = false) :
    Meets h (Behind w label s) c :=
  hc.mono fun _ hin => ⟨hin.of_children hlabel, fun hloop => absurd hloop (by rw [hs]; nofun)⟩

/-- What ends with a normal completion has no other. -/
theorem eq_normal_of_bind {α : Type} {c : Run α} {mem mem' : Memory} {a : Completion}
    (hrun : (c >>= fun _ => pure Completion.normal) mem = .ok a mem') : a = .normal := by
  change EStateM.bind c _ mem = _ at hrun
  unfold EStateM.bind at hrun
  split at hrun
  · cases hrun
    rfl
  · cases hrun

theorem raiseValue_ne_ok (v : Value) (mem mem' : Memory) (a : Completion) :
    raiseValue v mem ≠ .ok a mem' := by
  intro hrun
  unfold raiseValue at hrun
  split at hrun
  all_goals cases hrun

mutual

/-- The jumps that leave a statement are those that its enclosure takes. -/
theorem Stmt.meets (w : Enclosure) (label : Option String) (s : Stmt) (hs : s.leaves m w = false) :
    Meets h (Behind w label s) (s.record .alarms h fuel label) := by
  cases s with
  | empty =>
    refine meets_simple (allowed_pure _) (fun mem a mem' hrun => ?_) rfl
    cases hrun
    rfl
  | expr e =>
    exact meets_simple (e.eval_allowed.bind fun _ => allowed_pure _)
      (fun _ _ _ hrun => eq_normal_of_bind hrun) rfl
  | declare d =>
    refine meets_simple ((d.init_allowed _).bind fun v => (allowed_store d.name v).bind
      fun _ => allowed_pure _)
      (fun mem a mem' hrun => ?_) rfl
    change EStateM.bind _ _ mem = _ at hrun
    unfold EStateM.bind at hrun
    split at hrun
    · exact eq_normal_of_bind hrun
    · cases hrun
  | block body => exact (meets_all w body hs).of_children rfl rfl
  | cond test yes no loc =>
    -- a branch is looked at with the enclosure of the choice
    simp only [Stmt.leaves, Bool.or_eq_false_iff] at hs
    obtain ⟨⟨-, hyes⟩, hno⟩ := hs
    have hthen : Meets h (Inside w (Stmt.cond test yes no loc).children)
        (yes.record .alarms h fuel none) :=
      (Stmt.meets w none yes hyes).mono fun c hc => hc.1.of_mem mem_cons_self
    refine Meets.of_children ?_ rfl rfl
    cases no with
    | none =>
      rw [Stmt.record]
      refine (meets_test test).bind fun b _ => ?_
      cases b with
      | true => exact hthen
      | false => exact meets_pure trivial
    | some no =>
      rw [Stmt.record]
      refine (meets_test test).bind fun b _ => ?_
      cases b with
      | true => exact hthen
      | false =>
        exact (Stmt.meets w none no hno).mono fun c hc =>
          hc.1.of_mem (mem_cons_of_mem _ mem_cons_self)
  | whileLoop test body =>
    -- inside the body there is a loop to leave; what ends a round is no longer inside it
    simp only [Stmt.leaves, Bool.or_eq_false_iff] at hs
    have hbody := Stmt.meets { w with inLoop := true } none body hs.2
    exact meets_whileTrue (meets_test test) hbody ⟨trivial, fun _ _ _ => nofun⟩ fun c c' hc hend =>
      hc.1.endOfLoop mem_cons_self rfl hend
  | doWhile body test =>
    simp only [Stmt.leaves, Bool.or_eq_false_iff] at hs
    have hbody := Stmt.meets { w with inLoop := true } none body hs.2
    exact meets_untilFalse (meets_test test) hbody ⟨trivial, fun _ _ _ => nofun⟩ fun c c' hc hend =>
      hc.1.endOfLoop mem_cons_self rfl hend
  | forLoop init test update body =>
    simp only [Stmt.leaves, Bool.or_eq_false_iff] at hs
    obtain ⟨⟨⟨hinit, -⟩, -⟩, hleaves⟩ := hs
    have hbody := Stmt.meets { w with inLoop := true } none body hleaves
    have htest : Meets h (fun _ => True)
        (alarms.eval (test.elim (pure true) (Expr.test h))) := by
      cases test with
      | none => exact meets_any (allowed_pure true)
      | some e => exact meets_test e
    have hupdate : Meets h (fun _ => True) (alarms.eval (do let _ ← evalAll h update)) :=
      meets_any (((allowed_congruence h).evalAll update (reach_all _ _)).bind
        fun _ => allowed_pure _)
    rw [Stmt.record]
    refine (meets_start w init hinit).bind fun _ _ => ?_
    exact meets_counting htest hupdate hbody ⟨trivial, fun _ _ _ => nofun⟩ fun c c' hc hend =>
      hc.1.endOfLoop (mem_append_right _ mem_cons_self) rfl hend
  | forEach var iterable body =>
    simp only [Stmt.leaves, Bool.or_eq_false_iff] at hs
    have hbody := Stmt.meets { w with inLoop := true } none body hs.2
    rw [Stmt.record]
    refine (meets_any iterable.eval_allowed).bind fun source _ =>
      (meets_any (source.invoke_allowed "iterator" []).ofEffect).bind fun iterator _ => ?_
    -- a round asks for a value and stores it before the body runs
    have hround : Meets h (Behind { w with inLoop := true } none body) (do
        let v ← alarms.eval (Run.ofEffect (iterator.invoke h "next" []))
        alarms.eval (Run.store var.name v)
        body.record .alarms h fuel none) :=
      (meets_any (iterator.invoke_allowed "next" []).ofEffect).bind fun v _ =>
        (meets_any (allowed_store var.name v)).bind fun _ _ => hbody
    have htest : Meets h (fun _ => True)
        (alarms.eval (do (← Run.ofEffect (iterator.invoke h "hasNext" [])).asBool)) :=
      meets_any ((iterator.invoke_allowed "hasNext" []).ofEffect.bind allowed_asBool)
    exact meets_whileTrue htest hround ⟨trivial, fun _ _ _ => nofun⟩ fun c c' hc hend =>
      hc.1.endOfLoop mem_cons_self rfl hend
  | switch selector cases =>
    simp only [Stmt.leaves, Bool.or_eq_false_iff] at hs
    refine Meets.of_children ?_ rfl rfl
    rw [Stmt.record]
    have hstart := fun v =>
      meets_any ((allowed_congruence h).startOfSwitch v cases fun _ _ => reach_all _ _)
    refine (meets_any selector.eval_allowed).bind fun v _ => (hstart v).bind fun n _ => ?_
    cases n with
    | none => exact meets_pure trivial
    | some =>
      refine meets_fallThrough
        (fun body hbody => meets_cases { w with inSwitch := true } cases hs.2 body
        (mem_of_mem_drop hbody)) trivial fun c hc hne => ?_
      -- a break without a label goes no further than the switch
      rcases c with _ | (_ | _) | (_ | _)
      · trivial
      · exact absurd rfl hne
      · exact hc
      · exact hc
      · exact hc
  | tryCatch resources body catches final loc =>
    simp only [Stmt.leaves, Bool.or_eq_false_iff] at hs
    obtain ⟨⟨⟨-, hleaves⟩, hcatches⟩, hfinal⟩ := hs
    have hbody : Meets h (Inside w (Stmt.tryCatch resources body catches final loc).children)
        (recordAll .alarms h fuel body) :=
      (meets_all w body hleaves).mono fun c hc => hc.mono fun t ht =>
        mem_append_left _ (mem_append_left _ ht)
    have hhandlers : ∀ c ∈ recordHandlers .alarms h fuel catches,
        Meets h (Inside w (Stmt.tryCatch resources body catches final loc).children) c.body :=
          fun c hc =>
      (meets_handlers w catches hcatches c hc).mono fun c hc => hc.mono fun t ht =>
        mem_append_left _ (mem_append_right _ ht)
    refine Meets.of_children ?_ rfl rfl
    cases final with
    | none => exact meets_tryWith hbody hhandlers nofun
    | some final =>
      refine meets_tryWith hbody hhandlers fun c hc => ?_
      cases hc
      exact (meets_all w final hfinal).mono fun c hc => hc.mono fun t ht => mem_append_right _ ht
  | labeled own body =>
    -- the label is passed on to the body, which takes continues with it if it is a loop
    have hbody := Stmt.meets { w with labels := own :: w.labels } (some own) body hs
    rw [Stmt.record]
    exact hbody.bind fun c hc => meets_pure ⟨hc.behindLabel, nofun⟩
  | synchronized e body =>
    simp only [Stmt.leaves, Bool.or_eq_false_iff] at hs
    have hlock := meets_any ((allowed_congruence h).lock e (reach_all _ _))
    rw [Stmt.record]
    exact hlock.bind fun _ _ => (meets_all w body hs.2).of_children rfl rfl
  | ret => cases hs
  | brk target =>
    refine meets_recorded (allowed_pure _) fun mem a mem' hrun => ?_
    cases hrun
    refine ⟨?_, nofun⟩
    cases target with
    | none =>
      simp only [Stmt.leaves, Bool.and_eq_false_iff, Bool.not_eq_false'] at hs
      exact hs
    | some => simpa [Stmt.leaves, Inside] using hs
  | cont target loc =>
    refine meets_recorded (allowed_pure _) fun mem a mem' hrun => ?_
    cases hrun
    refine ⟨?_, nofun⟩
    cases target with
    | none => simpa [Stmt.leaves, Inside] using hs
    | some => exact ⟨[], loc, .top mem_cons_self, nofun⟩
  | raise e =>
    refine meets_simple (e.eval_allowed.bind fun v => raiseValue_allowed v)
      (fun mem a mem' hrun => ?_) rfl
    change EStateM.bind _ _ mem = _ at hrun
    unfold EStateM.bind at hrun
    split at hrun
    · exact absurd hrun (raiseValue_ne_ok _ _ _ _)
    · cases hrun

theorem meets_all (w : Enclosure) (ss : List Stmt) (hss : Stmt.leavesAny m w ss = false) :
    Meets h (Inside w ss) (recordAll .alarms h fuel ss) := by
  cases ss with
  | nil => exact meets_pure trivial
  | cons s ss =>
    obtain ⟨hs, hss⟩ := Bool.or_eq_false_iff.mp hss
    rw [recordAll]
    refine (Stmt.meets w none s hs).bind fun c hc => ?_
    cases c with
    | normal => exact (meets_all w ss hss).mono fun c hc => hc.mono fun t ht => mem_cons_of_mem _ ht
    | jump => exact meets_pure (hc.1.of_mem mem_cons_self)

theorem meets_start (w : Enclosure) (ss : List Stmt) (hss : Stmt.leavesAny m w ss = false) :
    Meets h (fun _ => True) (recordStart .alarms h fuel ss) := by
  cases ss with
  | nil => exact meets_pure trivial
  | cons s ss =>
    obtain ⟨hs, hss⟩ := Bool.or_eq_false_iff.mp hss
    rw [recordStart]
    exact (Stmt.meets w none s hs).bind fun _ _ => meets_start w ss hss

theorem meets_cases (w : Enclosure) (cs : List SwitchCase) (hcs : Stmt.leavesCases m w cs = false) :
    ∀ body ∈ recordCases .alarms h fuel cs,
      Meets h (Inside w (cs.flatMap SwitchCase.body)) body := by
  cases cs with
  | nil => exact nofun
  | cons c cs =>
    obtain ⟨labels, isDefault, body⟩ := c
    obtain ⟨hbody, hcs⟩ := Bool.or_eq_false_iff.mp hcs
    refine forall_mem_cons.mpr ⟨?_, fun b hb => ?_⟩
    · exact (meets_all w body hbody).mono fun c hc => hc.mono fun t ht => mem_append_left _ ht
    · exact (meets_cases w cs hcs b hb).mono fun c hc => hc.mono fun t ht => mem_append_right _ ht

theorem meets_handlers (w : Enclosure) (cs : List CatchClause)
    (hcs : Stmt.leavesCatches m w cs = false) :
    ∀ c ∈ recordHandlers .alarms h fuel cs,
      Meets h (Inside w (cs.flatMap CatchClause.body)) c.body := by
  cases cs with
  | nil => exact nofun
  | cons c cs =>
    obtain ⟨param, types, body⟩ := c
    obtain ⟨hbody, hcs⟩ := Bool.or_eq_false_iff.mp hcs
    refine forall_mem_cons.mpr ⟨?_, fun b hb => ?_⟩
    · exact (meets_all w body hbody).mono fun c hc => hc.mono fun t ht => mem_append_left _ ht
    · exact (meets_handlers w cs hcs b hb).mono fun c hc => hc.mono fun t ht =>
        mem_append_right _ ht

end

end Statements

/-- **Plain statements can be run as they stand.** A statement that need not be lowered completes
normally, unless somewhere inside it a continue names a label that no loop around it carries: then
it can complete with this continue, but with no other jump. Neither on its way nor at its end does
it raise the fault of a return that was not lowered, unless the host does. -/
theorem Stmt.exec_of_plain (m : Markers) (s : Stmt) (hs : s.needsLowering m = false) (h : Host)
    (fuel : Nat) (mem : Memory) : (∀ c mem', s.exec h fuel none mem = .ok c mem' →
      c = .normal ∨ ∃ label, c = .jump (.cont (some label)) ∧ Strays [s] label) ∧
    (∀ loc, .raised (.breach (.plainReturn loc)) ∈ (s.record .alarms h fuel none mem).1 →
      h.Raises (.breach (.plainReturn loc))) ∧
    ∀ loc mem', s.exec h fuel none mem = .error (.fault (.breach (.plainReturn loc))) mem' →
      h.Raises (.breach (.plainReturn loc)) := by
  have hmeets : Watched.Meets h (Completion.Behind {} none s) (s.record .alarms h fuel none) :=
    Stmt.meets {} none s hs
  have hrun : s.exec h fuel none mem = (s.record .alarms h fuel none mem).2 :=
    (congrFun (Stmt.erase_record .alarms h fuel none s) mem).symm
  refine ⟨fun c mem' hc => ?_, fun loc hraised => ?_, fun loc mem' hfault => ?_⟩
  · obtain ⟨hin, -⟩ := hmeets.gives mem c mem' (hrun.symm.trans hc)
    -- outside of everything there is nothing that takes a jump
    rcases c with _ | (_ | _) | (_ | label)
    · exact .inl rfl
    · rcases hin with hin | hin <;> cases hin
    · exact (not_mem_nil hin).elim
    · cases hin
    · exact .inr ⟨label, rfl, hin⟩
  · exact hmeets.raises mem _ hraised rfl
  · exact hmeets.fails mem _ mem' (hrun.symm.trans hfault) rfl

/-- A loop without end in which final code leaves the loop. -/
def Stmt.lastWord : Stmt :=
  .labeled "L" (.whileLoop (.literal (.bool true))
    (.tryCatch [] [.cont (some "L") .unknown] [] (some [.brk none .unknown]) .unknown) .unknown)
      .unknown

/-- Its final code has the last word, and no jump leaves it. -/
theorem Stmt.exec_of_plain_lastWord : lastWord.needsLowering ({} : Settings).markers = false ∧
    (∀ h mem, lastWord.exec h 1 none mem = .ok .normal mem) ∧
      (∀ h fuel mem c mem', lastWord.exec h fuel none mem = .ok c mem' → c = .normal) ∧
      ∀ h fuel mem loc, .raised
        (.breach (.plainReturn loc)) ∈ (lastWord.record .alarms h fuel none mem).1 →
        h.Raises (.breach (.plainReturn loc)) := by
  have hplain : lastWord.needsLowering ({} : Settings).markers = false := rfl
  refine ⟨hplain, fun _ _ => rfl, fun h fuel mem c mem' hrun => ?_,
    fun h fuel mem => (exec_of_plain _ lastWord hplain h fuel mem).2.1⟩
  rcases (exec_of_plain _ lastWord hplain h fuel mem).1 c mem' hrun
    with hc | ⟨label, -, path, loc, hlies, hpath⟩
  · exact hc
  · -- its only continue names the loop around it
    rw [lies_iff_mem_places] at hlies
    simp [lastWord, places, placesTo, children, sizeAll, size, sizeCatches, sizeFinal] at hlies
    simp_all [loopLabel?, isLoop]

/-- A continue with a label that no loop carries. -/
def Stmt.astray : Stmt := .labeled "L" (.block [.cont (some "L") .unknown] .unknown) .unknown

/-- It need not be lowered, and yet the continue leaves it, which is a breach of the class. -/
theorem Stmt.astray_escapes : astray.needsLowering ({} : Settings).markers = false ∧
    ∀ (e : Engine) (selector : SymbolId) (mem : Memory),
      astray.exec e.host e.fuel none mem = .ok (.jump (.cont (some "L"))) mem ∧
      (Op.plain astray).exec e selector mem =
          .error (.fault (.breach (.escaped .unknown (.cont (some "L"))))) mem :=
  ⟨rfl, fun _ _ _ => ⟨rfl, rfl⟩⟩

end Resumable
