import Resumable.Proofs.Passing

/-!
# Faults that no handler may see

Statements and machines are run with a record of every fault that is raised.

* `Alarm.raised` says that the evaluation of an expression, or a statement, has raised a fault, and
  `Alarm.replaced` that something else has taken its place: in a plain try, final code that
  completes with a jump or a fault, or a resource that cannot be closed;
* `Watched.Tells` carries the main argument: a fault that handlers may not see ends every
  computation around it, unless something takes its place (`Machine.tells`);
* `Machine.keeps`: nothing does if no plain try has resources or final code.
-/

namespace Resumable

open List Watched

/-- What happens to faults. -/
inductive Alarm where
  /-- an evaluation raises the fault -/
  | raised (f : Fault)
  /-- something takes the place of the fault -/
  | replaced (f : Fault)

namespace Watched

variable {α β : Type}

/-- The fault of a result is lost. -/
def lost : Except Fault α → List Alarm
  | .ok _ => []
  | .error f => [.replaced f]

/-- A computation that takes the place of a result unless it completes normally. -/
def replacing (result : Except Fault α) (c : Watched Alarm Completion) :
    Watched Alarm Completion := fun m =>
  match c m with
  | (alarms, .ok .normal m') => (alarms, .ok .normal m')
  | (alarms, r) => (alarms ++ lost result, r)

/-- A fault, unless handlers may see it, which takes the place of a result. -/
def raising (result : Except Fault α) (f : Fault) : Watched Alarm Value := fun m =>
  if f.isCatchable then ([], (f.caught : Run Value) m)
  else (lost result, (f.caught : Run Value) m)

theorem erase_replacing (result : Except Fault α) (c : Watched Alarm Completion) :
    erase (replacing result c) = erase c := by
  funext m
  rcases hc : c m with ⟨alarms, ⟨_ | j, m'⟩ | ⟨e, m'⟩⟩
  all_goals simp only [replacing, erase, hc]

theorem erase_raising (result : Except Fault α) (f : Fault) :
    erase (raising result f) = (f.caught : Run Value) := by
  funext m
  cases hf : f.isCatchable
  all_goals simp only [raising, erase, hf]; rfl

end Watched

/-- Records what happens to faults. -/
def Recorder.alarms : Recorder Alarm where
  eval := logFault .raised
  own := logFault .raised
  event _ := pure ()
  replacing := Watched.replacing
  raising := Watched.raising
  underLock _ c := c
  erase_eval := erase_logFault _
  erase_own := erase_logFault _
  erase_event _ := rfl
  erase_replacing := Watched.erase_replacing
  erase_raising := Watched.erase_raising
  erase_underLock _ _ := rfl

open Recorder (alarms)

/-! ## Faults that stand -/

/-- The fault stands: handlers may not see it, it was raised, and nothing has taken its place since.
-/
def Alarm.Standing (alarms : List Alarm) (f : Fault) : Prop :=
  f.isCatchable = false ∧ ∃ before after, alarms = before ++ .raised f :: after ∧
    .replaced f ∉ after

namespace Watched

variable {handlers : List (Handling Alarm)} {resources : List LocalDecl}
  {final : Option (Watched Alarm Completion)}
variable {α β : Type} {P : Fault → α → Prop} {Q : Fault → β → Prop} {f : Fault} {xs ys : List Alarm}

theorem not_standing_nil : ¬ Alarm.Standing [] f := by
  rintro ⟨-, before, after, heq, -⟩
  exact absurd heq.symm (append_ne_nil_of_right_ne_nil _ (cons_ne_nil _ _))

theorem standing_append (h : Alarm.Standing (xs ++ ys) f) :
    Alarm.Standing ys f ∨ Alarm.Standing xs f ∧ .replaced f ∉ ys := by
  obtain ⟨hf, before, after, heq, hafter⟩ := h
  rcases append_eq_append_iff.mp heq with ⟨more, rfl, rfl⟩ | ⟨more, rfl, hmore⟩
  · exact .inl ⟨hf, more, after, rfl, hafter⟩
  · cases more with
    | nil => exact .inl ⟨hf, [], after, hmore.symm, hafter⟩
    | cons alarm more =>
      rw [cons_append] at hmore
      cases hmore
      rw [mem_append, not_or] at hafter
      exact .inr ⟨⟨hf, before, more, rfl, hafter.1⟩, hafter.2⟩

/-- The result tells of the fault: by a value, or by failing with it. -/
def Ends (P : Fault → α → Prop) (f : Fault) : EStateM.Result Halt Memory α → Prop
  | .ok a _ => P f a
  | .error (.fault f') _ => f' = f
  | .error .outOfFuel _ => True

/-- The computation tells of a fault that stands. -/
def Tells (P : Fault → α → Prop) (c : Watched Alarm α) : Prop :=
  ∀ m f, Alarm.Standing (c m).1 f → Ends P f (c m).2

/-- The computation tells of a fault that stood before, if nothing takes its place. -/
def Carries (P : Fault → α → Prop) (f : Fault) (c : Watched Alarm α) : Prop :=
  ∀ m, .replaced f ∉ (c m).1 → Ends P f (c m).2

/-- No value tells of a fault. -/
def Never (_ : Fault) (_ : α) : Prop := False

/-- The fault is the result. -/
def Failed (f : Fault) (r : Except Fault α) : Prop := r = .error f

/-! ### Combinators -/

theorem tells_pure (a : α) : Tells P (pure a : Watched Alarm α) :=
  fun _ _ h => absurd h not_standing_nil

theorem tells_lift (c : Run α) : Tells P (liftM c : Watched Alarm α) :=
  fun _ _ h => absurd h not_standing_nil

theorem tells_eval (c : Run α) : Tells P (alarms.eval c) := by
  intro m f h
  rcases hc : c m with ⟨a, m'⟩ | ⟨f' | _, m'⟩
  all_goals simp only [alarms, logFault, hc] at h ⊢
  · exact absurd h not_standing_nil
  · obtain ⟨-, before, after, heq, -⟩ := h
    cases before with
    | nil => exact Alarm.raised.inj (List.cons.inj heq).1
    | cons =>
      exact absurd (List.cons.inj heq).2.symm (append_ne_nil_of_right_ne_nil _ (cons_ne_nil _ _))
  · trivial

theorem Ends.mono_error {e : Halt} {m : Memory} (h : Ends P f (.error e m)) :
    Ends Q f (.error e m) := by
  cases e with
  | fault => exact h
  | outOfFuel => trivial

variable {c : Watched Alarm α} {k : α → Watched Alarm β} {body : Watched Alarm Completion}

/-- **One computation after the other**: what the first one tells of, the second one has to carry.
-/
theorem Tells.bind (hc : Tells P c) (hk : ∀ a, Tells Q (k a))
    (hcarries : ∀ a f, f.isCatchable = false → P f a → Carries Q f (k a)) : Tells Q (c >>= k) := by
  intro m f h
  replace h : Alarm.Standing (Watched.bind c k m).1 f := h
  show Ends Q f (Watched.bind c k m).2
  have hcm := hc m
  unfold Watched.bind at h ⊢
  rcases hm : c m with ⟨alarms, ⟨a, m'⟩ | ⟨e, m'⟩⟩
  all_goals
    rw [hm] at h hcm
    simp only at h hcm ⊢
  · rcases standing_append h with hstands | ⟨hstands, hkeeps⟩
    · exact hk a m' f hstands
    · exact hcarries a f hstands.1 (hcm f hstands) m' hkeeps
  · exact (hcm f h).mono_error

/-- The first computation tells of no fault by a value. -/
theorem Tells.then (hc : Tells Never c) (hk : ∀ a, Tells Q (k a)) : Tells Q (c >>= k) :=
  hc.bind hk fun _ _ _ => False.elim

theorem Carries.bind (hc : Carries P f c) (hk : ∀ a, P f a → Carries Q f (k a)) :
    Carries Q f (c >>= k) := by
  intro m h
  replace h : .replaced f ∉ (Watched.bind c k m).1 := h
  show Ends Q f (Watched.bind c k m).2
  have hcm := hc m
  unfold Watched.bind at h ⊢
  rcases hm : c m with ⟨alarms, ⟨a, m'⟩ | ⟨e, m'⟩⟩
  all_goals
    rw [hm] at h hcm
    simp only at h hcm ⊢
  · rw [mem_append, not_or] at h
    exact hk a (hcm h.1) m' h.2
  · exact (hcm h).mono_error

theorem carries_pure {a : α} (h : P f a) : Carries P f (pure a : Watched Alarm α) := fun _ _ => h

theorem Tells.attempt (hc : Tells Never c) : Tells Failed (attempt c) := by
  intro m f h
  have hcm := hc m f h
  show Ends Failed f (Run.attempt (fun _ => (c m).2) m)
  unfold Run.attempt
  rcases hr : (c m).2 with ⟨a, m'⟩ | ⟨f' | _, m'⟩
  all_goals rw [hr] at hcm
  · exact hcm.elim
  · exact congrArg Except.error hcm
  · trivial

theorem tells_modular : Modular fun _ => Tells Never := ⟨tells_lift, Tells.then⟩

/-! ### Tries -/

/-- A fault that handlers may not see goes on. -/
theorem caught_of_uncatchable (hf : f.isCatchable = false) (m : Memory) :
    (Run.ofEffect f.caught : Run Value) m = .error (.fault f) m := by
  cases f with
  | thrown | noSuchElement => cases hf
  | _ => rfl

theorem caught_of_catchable (hf : f.isCatchable = true) (m : Memory) :
    ∃ v m', (Run.ofEffect f.caught : Run Value) m = .ok v m' := by
  cases f with
  | thrown | noSuchElement => exact ⟨_, _, rfl⟩
  | _ => cases hf

theorem carries_caught {Q : Fault → Value → Prop} (hf : f.isCatchable = false) :
    Carries Q f (liftM (Run.ofEffect f.caught : Run Value) : Watched Alarm Value) := by
  intro m _
  show Ends Q f (Run.ofEffect f.caught m)
  rw [caught_of_uncatchable hf]
  rfl

theorem not_standing_lost {result : Except Fault α} : ¬ Alarm.Standing (lost result) f := by
  rintro ⟨-, before, after, heq, -⟩
  have hmem : Alarm.raised f ∈ lost result := heq ▸ mem_append_right _ mem_cons_self
  cases result with
  | ok => cases hmem
  | error =>
    cases hmem with
    | tail _ hmem => cases hmem

theorem tells_raising (result : Except Fault α) (f : Fault) (Q : Fault → Value → Prop) :
    Tells Q (raising result f) := by
  intro m f' h
  unfold raising at h
  split at h
  · exact absurd h not_standing_nil
  · exact absurd h not_standing_lost

/-- The fault that takes the place of a result is the one that is told. -/
theorem carries_raising {Q : Fault → Value → Prop} (result : Except Fault α)
    (hf : f.isCatchable = false) : Carries Q f (raising result f) := by
  intro m _
  unfold raising
  rw [hf]
  exact carries_caught (Q := Q) hf m not_mem_nil

/-- If nothing takes the place of a fault, then what is raised instead is a failure for handlers. -/
theorem carries_raising_of_error (f' : Fault) :
    Carries (fun _ _ => True) f (raising (.error f : Except Fault α) f') := by
  intro m h
  unfold raising at h ⊢
  cases hf' : f'.isCatchable with
  | true =>
    rw [if_pos rfl]
    obtain ⟨v, m', hv⟩ := caught_of_catchable hf' m
    show Ends _ f (Run.ofEffect f'.caught m)
    rw [hv]
    trivial
  | false =>
    rw [hf'] at h
    exact absurd mem_cons_self h

theorem carries_ofResult {Q : Fault → α → Prop} :
    Carries Q f (liftM (ofResult (.error f) : Run α) : Watched Alarm α) :=
  fun _ _ => rfl

theorem carries_attempt (c : Watched Alarm α) : Carries (fun _ _ => True) f (attempt c) := by
  intro m _
  show Ends _ f (Run.attempt (fun _ => (c m).2) m)
  unfold Run.attempt
  rcases (c m).2 with ⟨a, m'⟩ | ⟨f' | _, m'⟩
  · trivial
  · trivial
  · trivial

theorem tells_openAll (h : Host) (ds : List LocalDecl) (opened : List Value) :
    Tells (fun f r => r.2 = some f) (alarms.openAll h ds opened) := by
  induction ds generalizing opened with
  | nil => exact tells_pure _
  | cons d ds ih =>
    refine (tells_eval _).attempt.bind (fun r => ?_) fun r f hf hr => ?_
    · cases r with
      | ok => exact (tells_eval _).then fun _ => ih _
      | error => exact tells_pure _
    · cases hr
      exact carries_pure rfl

theorem tells_closeAll (h : Host) (result : Except Fault Completion) (vs : List Value) :
    Tells Failed (alarms.closeAll h result vs) := by
  induction vs generalizing result with
  | nil => exact tells_pure _
  | cons v vs ih =>
    rw [Recorder.closeAll]
    cases v.isNull with
    | true => exact ih result
    | false =>
      refine (tells_eval _).attempt.bind (fun r => ?_) fun r f hf hr => ?_
      · cases r with
        | ok => exact ih result
        | error f =>
          exact (tells_raising result f Never).then fun failure =>
            (tells_lift _).then fun result => ih result
      · cases hr
        exact (carries_raising (Q := Never) result hf).bind fun _ => False.elim

/-- Closing resources does not take the place of a fault unless that is noted. -/
theorem carries_closeAll (h : Host) (hf : f.isCatchable = false) (vs : List Value) :
    Carries Failed f (alarms.closeAll h (.error f) vs) := by
  induction vs with
  | nil => exact carries_pure rfl
  | cons v vs ih =>
    rw [Recorder.closeAll]
    cases v.isNull with
    | true => exact ih
    | false =>
      refine (carries_attempt _).bind fun r _ => ?_
      cases r with
      | ok => exact ih
      | error f' =>
        refine (carries_raising_of_error f').bind fun failure _ => ?_
        have hkept : Run.afterCloseFailure failure (.error f) = pure (.error f) := by
          cases f with
          | thrown => cases hf
          | _ => rfl
        rw [hkept]
        exact (carries_pure (P := Failed) rfl).bind fun result hresult => hresult ▸ ih

theorem tells_withResources {h : Host} (hbody : Tells Never body) :
    Tells Never (alarms.withResources h resources body) := by
  have hclosing : ∀ result opened, Tells Never (do
      (ofResult (← alarms.closeAll h result opened) : Run Completion) :
        Watched Alarm Completion) := fun result opened =>
    (tells_closeAll h result opened).bind (fun _ => tells_lift _) fun r f _ hr =>
      hr ▸ carries_ofResult
  have hcarries : ∀ f opened, f.isCatchable = false → Carries Never f (do
      (ofResult (← alarms.closeAll h (.error f) opened) : Run Completion) :
        Watched Alarm Completion) := fun f opened hf =>
    (carries_closeAll h hf opened).bind fun r hr => hr ▸ carries_ofResult
  refine (tells_openAll h resources []).bind (fun r => ?_) fun r f hf hr => ?_
  · obtain ⟨opened, stopped⟩ := r
    cases stopped with
    | some => exact (tells_pure (P := Never) _).then fun result => hclosing result opened
    | none =>
      exact hbody.attempt.bind (fun result => hclosing result opened) fun r f hf hr =>
        hr ▸ hcarries f opened hf
  · obtain ⟨opened, stopped⟩ := r
    cases hr
    exact (carries_pure (P := Failed) rfl).bind fun r hr => hr ▸ hcarries f opened hf

theorem tells_handle (hhandlers : ∀ c ∈ handlers, Tells Never c.body)
    (result : Except Fault Completion) : Tells Failed (alarms.handle handlers result) := by
  cases result with
  | ok => exact tells_pure _
  | error =>
    rw [Recorder.handle]
    split
    · refine (tells_lift (P := Never) _).then fun failure => ?_
      cases hfind : handlers.find? fun c => failure.isAnyOf c.types with
      | none => exact tells_pure _
      | some c =>
        exact (tells_eval _).then fun _ => (hhandlers c (mem_of_find?_eq_some hfind)).attempt
    · exact tells_pure _

theorem carries_handle (handlers : List (Handling Alarm)) (hf : f.isCatchable = false) :
    Carries Failed f (alarms.handle handlers (.error f)) := by
  rw [Recorder.handle, hf]
  exact carries_pure rfl

theorem tells_replacing {c : Watched Alarm Completion} (hc : Tells Never c)
    (result : Except Fault α) : Tells Never (replacing result c) := by
  intro m f h
  have hcm := hc m f
  unfold replacing at h ⊢
  rcases hm : c m with ⟨alarms, ⟨_ | j, m'⟩ | ⟨e, m'⟩⟩
  all_goals
    rw [hm] at h hcm
    simp only at h hcm ⊢
  · exact hcm h
  · exact hcm ((standing_append h).resolve_left not_standing_lost).1
  · exact hcm ((standing_append h).resolve_left not_standing_lost).1

theorem carries_replacing (c : Watched Alarm Completion) :
    Carries (fun _ r => r = .normal) f (replacing (.error f : Except Fault α) c) := by
  intro m h
  unfold replacing at h ⊢
  rcases hm : c m with ⟨alarms, ⟨_ | j, m'⟩ | ⟨e, m'⟩⟩
  all_goals
    rw [hm] at h
    simp only at h ⊢
  · rfl
  · exact absurd (mem_append_right _ mem_cons_self) h
  · exact absurd (mem_append_right _ mem_cons_self) h

theorem tells_finishWith (hfinal : ∀ c ∈ final, Tells Never c) (result : Except Fault Completion) :
    Tells Never (alarms.finishWith final result) := by
  cases final with
  | none => exact tells_lift _
  | some final =>
    refine (tells_replacing (hfinal final rfl) result).then fun c => ?_
    cases c with
    | normal => exact tells_lift _
    | jump => exact tells_pure _

theorem carries_finishWith (final : Option (Watched Alarm Completion)) :
    Carries Never f (alarms.finishWith final (.error f)) := by
  cases final with
  | none => exact carries_ofResult
  | some final =>
    refine (carries_replacing final).bind fun c hc => ?_
    rw [hc]
    exact carries_ofResult

theorem tells_tryWith {h : Host} (hbody : Tells Never body)
    (hhandlers : ∀ c ∈ handlers, Tells Never c.body) (hfinal : ∀ c ∈ final, Tells Never c) :
    Tells Never (alarms.tryWith h resources body handlers final) := by
  refine (tells_withResources hbody).attempt.bind (fun result => ?_) fun r f hf hr => ?_
  · exact (tells_handle hhandlers result).bind (tells_finishWith hfinal) fun r f _ hr =>
      hr ▸ carries_finishWith final
  · rw [hr]
    exact (carries_handle handlers hf).bind fun r hr => hr ▸ carries_finishWith final

end Watched

/-! ### Guards -/

namespace Watched

theorem tells_closeFields (h : Host) (primary : Option Value) (xs : List SymbolId) :
    Tells Never (alarms.closeFields h primary xs) := by
  induction xs generalizing primary with
  | nil => exact tells_pure _
  | cons x xs ih =>
    rw [Recorder.closeFields]
    refine (tells_lift (P := Never) _).then fun v => ?_
    cases v.isNull with
    | true => exact ih primary
    | false =>
      refine (tells_eval _).attempt.bind (fun closed => ?_) fun closed f hf hclosed => ?_
      · cases closed with
        | ok => exact (tells_pure (P := Never) _).then fun _ => ih primary
        | error =>
          refine (tells_lift (P := Never) _).then fun failure => ?_
          refine (tells_pure (P := Never) _).then fun _ => ?_
          cases primary with
          | some p => exact (tells_lift (P := Never) _).then fun _ => ih (some p)
          | none => exact ih (some failure)
      · cases hclosed
        exact (carries_caught (Q := Never) hf).bind fun _ => False.elim

theorem tells_enterHandler (tags : TagTable) (selector : SymbolId) (g : GuardFields)
    (failure : Value) : Tells Never (alarms.enterHandler tags selector g failure) := by
  refine (tells_lift (P := Never) _).then fun _ => ?_
  split
  · refine (tells_lift (P := Never) _).then fun _ => (tells_lift (P := Never) _).then fun _ => ?_
    exact (tells_pure (P := Never) _).then fun _ => (tells_eval _).then fun _ => tells_pure _
  · refine (tells_pure (P := Never) _).then fun _ => ?_
    exact (tells_lift (P := Never) _).then fun _ => tells_pure _

theorem tells_guardRound {e : Engine} {g : GuardFields} {selector : SymbolId}
    {machine : Watched Alarm (Option Value)} (hmachine : Tells Never machine) :
    Tells Never (alarms.guardRound e g selector machine) := by
  refine (tells_eval _).then fun handling =>
    hmachine.attempt.bind (fun stay => ?_) fun stay f hf hstay => ?_
  · rcases stay with f | (_ | v)
    · refine (tells_lift (P := Never) _).then fun failure => ?_
      refine (tells_pure (P := Never) _).then fun _ => ?_
      cases handling with
      | true =>
        refine (tells_pure (P := Never) _).then fun _ => ?_
        exact (tells_lift (P := Never) _).then fun _ => tells_pure _
      | false => exact (tells_closeFields _ _ _).then fun _ => tells_enterHandler _ _ _ _
    · refine (tells_pure (P := Never) _).then fun _ => ?_
      cases handling with
      | true => exact tells_pure _
      | false =>
        refine (tells_closeFields _ _ _).then fun failure => ?_
        cases failure with
        | none => exact tells_pure _
        | some => exact tells_enterHandler _ _ _ _
    · exact (tells_pure (P := Never) _).then fun _ => tells_pure _
  -- the fault of the machine is no failure for the guard, and goes on
  · cases hstay
    exact (carries_caught (Q := Never) hf).bind fun _ => False.elim

theorem tells_passes : alarms.PassesOps false (fun _ => True) fun _ => Tells Never where
  toModular := tells_modular
  eval := tells_eval
  own := tells_eval
  event _ := tells_pure _
  underLock h := h
  tryWith _ := tells_tryWith
  plain _ := nofun
  lockedOps _ h := h
  guardRound := tells_guardRound

end Watched

/-- A machine fails with every fault that stands. -/
theorem Machine.tells (e : Engine) (m : Machine) : Tells Never (m.record .alarms e) :=
  Machine.record_passes tells_passes
    (Machine.every_of_forall (fun _ => trivial) _) e

/-! ## Machines that keep faults -/

namespace Watched

/-- Nothing takes the place of a fault. -/
def Keeps {α : Type} (c : Watched Alarm α) : Prop := ∀ m f, .replaced f ∉ (c m).1

theorem keeps_eval {α : Type} (c : Run α) : Keeps (alarms.eval c) := by
  intro m f
  rcases hc : c m with ⟨a, m'⟩ | ⟨f' | _, m'⟩
  all_goals simp [alarms, logFault, hc]

theorem Keeps.bind {α β : Type} {c : Watched Alarm α} {k : α → Watched Alarm β} (hc : Keeps c)
    (hk : ∀ a, Keeps (k a)) : Keeps (c >>= k) := by
  intro m f
  show .replaced f ∉ (Watched.bind c k m).1
  have hcm := hc m f
  unfold Watched.bind
  rcases hm : c m with ⟨alarms, ⟨a, m'⟩ | ⟨e, m'⟩⟩
  all_goals
    rw [hm] at hcm
    simp only at hcm ⊢
  · rw [mem_append, not_or]
    exact ⟨hcm, hk a m' f⟩
  · exact hcm

theorem keeps_attempts : alarms.Attempts fun _ => Keeps where
  lift _ _ _ := not_mem_nil
  bind := Keeps.bind
  eval := keeps_eval
  attempt h := h

theorem keeps_passes :
    alarms.PassesOps true (fun op => ∀ s, op = .plain s → s.keepsFaults = true)
      fun _ => Keeps where
  toModular := keeps_attempts.toModular
  eval := keeps_eval
  own := keeps_eval
  event _ := keeps_attempts.pure _
  underLock h := h
  tryWith hstrict hbody hhandlers _ := by
    obtain ⟨rfl, rfl⟩ := hstrict rfl
    exact keeps_attempts.handleOnly hbody hhandlers
  plain hs _ := hs _ rfl
  lockedOps _ h := h
  guardRound := keeps_attempts.guardRound (fun _ => keeps_attempts.pure _) keeps_eval

end Watched

theorem Machine.keeps (e : Engine) {m : Machine} (hm : m.keepsFaults = true) :
    Keeps (m.record .alarms e) :=
  Machine.record_passes keeps_passes
    ((Machine.every_plains _).mpr fun s hs => all_eq_true.mp hm s hs) e

end Resumable
