import Resumable.Execution.Stmt

/-!
# Computations with a record

A computation on the memory of a generator, together with a record of what happened in it. What is
recorded is a parameter.

* `Watched` is a computation with its record, and `Watched.erase` forgets the record;
* the ways in which statements repeat and fall through have a recorded form, and forgetting the
  record of one of them gives the plain form back;
* `Modular` is a property that holds of computations without a record and goes over to sequences:
  it holds of loops as well.
-/

namespace Resumable

open List

/-- A computation with a record. -/
def Watched (ε α : Type) := Memory → List ε × EStateM.Result Halt Memory α

namespace Watched

variable {ε α β : Type}

/-- A result without a record. -/
protected def pure (a : α) : Watched ε α := fun m => ([], .ok a m)

/-- One computation after the other. -/
protected def bind (c : Watched ε α) (f : α → Watched ε β) : Watched ε β := fun m =>
  match c m with
  | (events, .ok a m') => (events ++ (f a m').1, (f a m').2)
  | (events, .error e m') => (events, .error e m')

instance : Monad (Watched ε) where
  pure := Watched.pure
  bind := Watched.bind

/-- A computation of which nothing is recorded. -/
def silent (c : Run α) : Watched ε α := fun m => ([], c m)

instance : MonadLift Run (Watched ε) := ⟨silent⟩

/-- An entry of the record. -/
def log (e : ε) : Watched ε Unit := fun m => ([e], .ok () m)

/-- A computation whose fault is recorded. -/
def logFault (entry : Fault → ε) (c : Run α) : Watched ε α := fun m =>
  match c m with
  | .error (.fault f) m' => ([entry f], .error (.fault f) m')
  | r => ([], r)

/-- Runs a computation and gives its fault as a result. -/
def attempt (c : Watched ε α) : Watched ε (Except Fault α) := fun m =>
  ((c m).1, Run.attempt (fun _ => (c m).2) m)

/-- Goes from point to point by `step` until it gives a result. -/
def loop (step : β → Watched ε (β ⊕ α)) : Nat → β → Watched ε α
  | 0, _, m => ([], .error .outOfFuel m)
  | fuel + 1, b, m =>
    match step b m with
    | (events, .ok (.inl b) m') => (events ++ (loop step fuel b m').1, (loop step fuel b m').2)
    | (events, .ok (.inr a) m') => (events, .ok a m')
    | (events, .error e m') => (events, .error e m')

/-- Repeats a step until it gives a result. -/
def repeatUntil (fuel : Nat) (step : Watched ε (Option α)) : Watched ε α :=
  loop (fun _ => do
    match ← step with
    | some a => return .inr a
    | none => return .inl ()) fuel ()

/-- Repeats a body as long as a test in front of it holds. -/
def whileTrue (fuel : Nat) (label : Option String) (test : Watched ε Bool)
    (body : Watched ε Completion) : Watched ε Completion :=
  repeatUntil fuel do
    if ← test then return (← body).endOfLoop? label else return some .normal

/-- Repeats a body as long as a test behind it holds. -/
def untilFalse (fuel : Nat) (label : Option String) (body : Watched ε Completion)
    (test : Watched ε Bool) : Watched ε Completion :=
  repeatUntil fuel do
    match (← body).endOfLoop? label with
    | some c => return some c
    | none => if ← test then return none else return some .normal

/-- Repeats a body and then an update, as long as a test in front of them holds. -/
def counting (fuel : Nat) (label : Option String) (test : Watched ε Bool)
    (update : Watched ε Unit) (body : Watched ε Completion) : Watched ε Completion :=
  repeatUntil fuel do
    if ← test then
      match (← body).endOfLoop? label with
      | some c => return some c
      | none => do
        update
        return none
    else return some .normal

/-- Runs bodies one after the other until one breaks. -/
def fallThrough : List (Watched ε Completion) → Watched ε Completion
  | [] => pure .normal
  | body :: bodies => do
    match ← body with
    | .normal => fallThrough bodies
    | .jump (.brk none) => return .normal
    | c => return c

/-- A loop is its first step, and the loop or the result behind it. -/
theorem loop_succ (step : β → Watched ε (β ⊕ α)) (fuel : Nat) (b : β) :
    loop step (fuel + 1) b = step b >>= Sum.elim (loop step fuel) pure := by
  funext m
  show loop step (fuel + 1) b m = Watched.bind (step b) _ m
  unfold loop Watched.bind
  rcases step b m with ⟨events, ⟨b' | a, m'⟩ | ⟨e, m'⟩⟩
  · rfl
  · exact Prod.ext (append_nil _).symm rfl
  · rfl

/-! ## Without the record -/

/-- The computation without its record. -/
def erase (c : Watched ε α) : Run α := fun m => (c m).2

@[simp] theorem erase_pure (a : α) : erase (pure a : Watched ε α) = pure a := rfl

@[simp] theorem erase_bind (c : Watched ε α) (f : α → Watched ε β) :
    erase (c >>= f) = erase c >>= fun a => erase (f a) := by
  funext m
  show (Watched.bind c f m).2 = EStateM.bind (erase c) (fun a => erase (f a)) m
  unfold Watched.bind EStateM.bind erase
  rcases c m with ⟨events, r⟩
  cases r with
  | ok | error => rfl

theorem erase_bind_eq {c : Watched ε α} {k : α → Watched ε β} {c' : Run α} {k' : α → Run β}
    (hc : erase c = c') (hk : ∀ a, erase (k a) = k' a) : erase (c >>= k) = c' >>= k' := by
  rw [erase_bind, hc, funext hk]

@[simp] theorem erase_liftM (c : Run α) : erase (liftM c : Watched ε α) = c := rfl

@[simp] theorem erase_logFault (entry : Fault → ε) (c : Run α) : erase (logFault entry c) = c := by
  funext m
  rcases hc : c m with ⟨a, m'⟩ | ⟨_ | _, m'⟩
  all_goals simp only [logFault, erase, hc]

@[simp] theorem erase_attempt (c : Watched ε α) : erase (attempt c) = Run.attempt (erase c) := rfl

theorem erase_loop (step : β → Watched ε (β ⊕ α)) (fuel : Nat) (b : β) :
    erase (loop step fuel b) = Run.loop (fun b => erase (step b)) fuel b := by
  induction fuel generalizing b with
  | zero => rfl
  | succ fuel ih =>
    funext m
    rcases hstep : step b m with ⟨events, r⟩
    rcases r with ⟨r, m'⟩ | ⟨e, m'⟩
    · cases r with
      | inl b' =>
        simp only [erase, loop, Run.loop, hstep]
        exact congrFun (ih b') m'
      | inr => simp only [erase, loop, Run.loop, hstep]
    · simp only [erase, loop, Run.loop, hstep]

theorem erase_repeatUntil (fuel : Nat) (step : Watched ε (Option α)) :
    erase (repeatUntil fuel step) = Run.repeatUntil fuel (erase step) := by
  unfold repeatUntil Run.repeatUntil
  rw [erase_loop]
  congr 1
  funext _
  refine erase_bind_eq rfl fun r => ?_
  cases r with
  | none | some => rfl

section Statements

variable (fuel : Nat) (label : Option String) (test : Watched ε Bool) (update : Watched ε Unit)
  (body : Watched ε Completion)

theorem erase_whileTrue : erase (whileTrue fuel label test body) =
    Run.whileTrue fuel label (erase test) (erase body) := by
  rw [whileTrue, Run.whileTrue, erase_repeatUntil, erase_bind]
  congr 2
  funext b
  cases b with
  | true => exact erase_bind ..
  | false => rfl

theorem erase_untilFalse : erase (untilFalse fuel label body test) =
    Run.untilFalse fuel label (erase body) (erase test) := by
  rw [untilFalse, Run.untilFalse, erase_repeatUntil, erase_bind]
  congr 2
  funext c
  cases c.endOfLoop? label with
  | some => rfl
  | none =>
    refine erase_bind_eq rfl fun b => ?_
    cases b with
    | true | false => rfl

theorem erase_counting : erase (counting fuel label test update body) =
    Run.counting fuel label (erase test) (erase update) (erase body) := by
  rw [counting, Run.counting, erase_repeatUntil, erase_bind]
  congr 2
  funext b
  cases b with
  | false => rfl
  | true =>
    simp only [if_true, erase_bind]
    congr 1
    funext c
    cases c.endOfLoop? label with
    | some => rfl
    | none => rw [erase_bind]; rfl

end Statements

theorem erase_fallThrough (bodies : List (Watched ε Completion)) :
    erase (fallThrough bodies) = Run.fallThrough (bodies.map erase) := by
  induction bodies with
  | nil => rfl
  | cons body bodies ih =>
    refine erase_bind_eq rfl fun c => ?_
    rcases c with _ | (_ | _) | _
    · exact ih
    · rfl
    · rfl
    · rfl

/-! ## Properties of sequences -/

/-- A property that holds of computations without a record, and goes over to sequences. -/
structure Modular (P : (α : Type) → Watched ε α → Prop) : Prop where
  lift : ∀ {α : Type} (c : Run α), P α (liftM c)
  bind : ∀ {α β : Type} {c : Watched ε α} {k : α → Watched ε β}, P α c → (∀ a, P β (k a)) →
    P β (c >>= k)

namespace Modular

variable {P : (α : Type) → Watched ε α → Prop} (hP : Modular P) {fuel : Nat}
  {label : Option String} {test : Watched ε Bool} {update : Watched ε Unit}
  {body : Watched ε Completion}
include hP

theorem pure {α : Type} (a : α) : P α (Pure.pure a) := hP.lift (Pure.pure a)

/-- What holds of every step of a loop holds of the loop. -/
theorem loop {α β : Type} {step : β → Watched ε (β ⊕ α)} (hstep : ∀ b, P _ (step b)) (fuel : Nat)
    (b : β) : P α (Watched.loop step fuel b) := by
  induction fuel generalizing b with
  | zero => exact hP.lift fun m => .error .outOfFuel m
  | succ fuel ih =>
    rw [loop_succ]
    refine hP.bind (hstep b) fun r => ?_
    cases r with
    | inl b => exact ih b
    | inr a => exact hP.pure a

theorem repeatUntil {α : Type} {step : Watched ε (Option α)} (hstep : P _ step) (fuel : Nat) :
    P α (Watched.repeatUntil fuel step) := by
  refine hP.loop (fun _ => hP.bind hstep fun r => ?_) fuel ()
  cases r <;> exact hP.pure _

theorem whileTrue (htest : P _ test) (hbody : P _ body) :
    P _ (Watched.whileTrue fuel label test body) := by
  refine hP.repeatUntil (hP.bind htest fun b => ?_) fuel
  cases b with
  | true => exact hP.bind hbody fun _ => hP.pure _
  | false => exact hP.pure _

theorem untilFalse (htest : P _ test) (hbody : P _ body) :
    P _ (Watched.untilFalse fuel label body test) := by
  refine hP.repeatUntil (hP.bind hbody fun c => ?_) fuel
  cases c.endOfLoop? label with
  | some => exact hP.pure _
  | none =>
    refine hP.bind htest fun b => ?_
    cases b <;> exact hP.pure _

theorem counting (htest : P _ test) (hupdate : P _ update) (hbody : P _ body) :
    P _ (Watched.counting fuel label test update body) := by
  refine hP.repeatUntil (hP.bind htest fun b => ?_) fuel
  cases b with
  | false => exact hP.pure _
  | true =>
    refine hP.bind hbody fun c => ?_
    cases c.endOfLoop? label with
    | some => exact hP.pure _
    | none => exact hP.bind hupdate fun _ => hP.pure _

theorem fallThrough {bodies : List (Watched ε Completion)} (hbodies : ∀ body ∈ bodies, P _ body) :
    P _ (Watched.fallThrough bodies) := by
  induction bodies with
  | nil => exact hP.pure _
  | cons body bodies ih =>
    obtain ⟨hbody, hbodies⟩ := forall_mem_cons.mp hbodies
    refine hP.bind hbody fun c => ?_
    rcases c with _ | (_ | _) | _
    · exact ih hbodies
    · exact hP.pure _
    · exact hP.pure _
    · exact hP.pure _

end Modular

end Watched

end Resumable
