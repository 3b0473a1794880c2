import Resumable.Proofs.Locks
import Resumable.Proofs.Sessions

/-!
# Locks are held within one run

Statements and machines are run with a record of the locks that are taken and released. A lock is
released when control leaves the code under it, whichever way, but not when that code suspends.

* `LockEvent.Balanced` says that locks are released in the reverse order and that none is held at
  the end;
* `Watched.Closes` carries the argument: every computation of a tame machine is balanced, since code
  under a lock never suspends;
* `Procedure.lower_frees_locks`: no lowered generator holds a lock between its advances.
-/

namespace Resumable

open List Watched

/-- What happens to locks. -/
inductive LockEvent where
  /-- a lock is taken -/
  | taken
  /-- the lock that was taken last and is still held is released -/
  | released
  deriving DecidableEq

namespace LockEvent

/-- Every lock that is taken is released, the last one first. -/
inductive Balanced : List LockEvent → Prop where
  | nil : Balanced []
  | region {inner rest : List LockEvent} (hinner : Balanced inner) (hrest : Balanced rest) :
      Balanced (.taken :: (inner ++ .released :: rest))

theorem Balanced.append {a b : List LockEvent} (ha : Balanced a) (hb : Balanced b) :
    Balanced (a ++ b) := by
  induction ha with
  | nil => exact hb
  | region hinner _ _ ih =>
    rw [cons_append, List.append_assoc, cons_append]
    exact .region hinner ih

end LockEvent

namespace Watched

open LockEvent

variable {α β : Type}

/-- Code under a lock that was just taken. -/
def underLock (suspends : α → Bool) (c : Watched LockEvent α) : Watched LockEvent α := fun m =>
  match c m with
  | (events, .ok a m') => (.taken :: (events ++ if suspends a then [] else [.released]), .ok a m')
  | (events, .error (.fault f) m') => (.taken :: (events ++ [.released]), .error (.fault f) m')
  | (events, .error .outOfFuel m') => (.taken :: events, .error .outOfFuel m')

theorem erase_underLock (suspends : α → Bool) (c : Watched LockEvent α) :
    erase (underLock suspends c) = erase c := by
  funext m
  unfold erase underLock
  rcases c m with ⟨events, ⟨a, m'⟩ | ⟨f | _, m'⟩⟩
  · rfl
  · rfl
  · rfl

/-- The run comes to an end: it does not lack fuel. -/
def Over (r : EStateM.Result Halt Memory α) : Prop := ∀ m, r ≠ .error .outOfFuel m

theorem over_ok (a : α) (m : Memory) : Over (.ok a m : EStateM.Result Halt Memory α) := by
  intro m' h
  cases h

theorem over_fault (f : Fault) (m : Memory) :
    Over (.error (.fault f) m : EStateM.Result Halt Memory α) := by
  intro m' h
  cases h

/-- Where the run comes to an end, no lock is held any more. -/
def Closes (c : Watched LockEvent α) : Prop := ∀ m, Over (c m).2 → Balanced (c m).1

variable {c : Watched LockEvent α}

theorem Closes.bind {f : α → Watched LockEvent β} (hc : c.Closes) (hf : ∀ a, (f a).Closes) :
    Closes (c >>= f) := by
  intro m
  have hm := hc m
  show Over (Watched.bind c f m).2 → Balanced (Watched.bind c f m).1
  unfold Watched.bind
  rcases hr : c m with ⟨events, ⟨a, m'⟩ | ⟨e, m'⟩⟩
  · rw [hr] at hm
    intro hover
    exact (hm (over_ok a m')).append (hf a m' hover)
  · rw [hr] at hm
    intro hover
    exact hm fun m₁ h => hover m₁ (by cases h; rfl)

theorem Closes.attempt (hc : c.Closes) : Closes c.attempt := by
  intro m hover
  refine hc m fun m' h => hover m' ?_
  simp only [Watched.attempt, Run.attempt, h]

/-- Code that does not suspend gives its lock back. -/
theorem Closes.underLock {suspends : α → Bool} (hc : c.Closes)
    (hstays : ∀ m a m', erase c m = .ok a m' → suspends a = false) :
    Closes (underLock suspends c) := by
  intro m
  have hm := hc m
  have hstay := hstays m
  unfold erase at hstay
  unfold Watched.underLock
  rcases hr : c m with ⟨events, ⟨a, m'⟩ | ⟨f | _, m'⟩⟩
  · rw [hr] at hm hstay
    intro _
    simp only [hstay a m' rfl]
    exact .region (hm (over_ok a m')) .nil
  · rw [hr] at hm
    intro _
    exact .region (hm (over_fault f m')) .nil
  · intro hover
    exact absurd rfl (hover m')

end Watched

/-- Records what happens to locks. -/
def Recorder.locks : Recorder LockEvent where
  eval c := liftM c
  own c := liftM c
  event _ := pure ()
  replacing _ c := c
  raising _ f := liftM (f.caught : Run Value)
  underLock := Watched.underLock
  erase_eval _ := rfl
  erase_own _ := rfl
  erase_event _ := rfl
  erase_replacing _ _ := rfl
  erase_raising _ _ := rfl
  erase_underLock := Watched.erase_underLock

/-! ## Code under locks goes on -/

/-- The computation never suspends. -/
def GoesOn (c : Run Flow) : Prop := ∀ m flow m', c m = .ok flow m' → flow.suspends = false

section GoesOn

variable {α : Type}

theorem goesOn_pure {flow : Flow} (h : flow.suspends = false) : GoesOn (pure flow) :=
  Run.returns_pure fun _ => h

theorem goesOn_bind {c : Run α} {f : α → Run Flow} (h : ∀ a, GoesOn (f a)) : GoesOn (c >>= f) :=
  Run.Returns.bind h

mutual

theorem Op.goesOn_exec (e : Engine) (selector : SymbolId) (op : Op)
    (h : ∀ o ∈ op.inside, o.isLockable) : GoesOn (op.exec e selector) := by
  cases op with
  | plain =>
    refine goesOn_bind fun c => ?_
    cases c with
    | normal => exact goesOn_pure rfl
    | jump => exact fun m flow m' hrun => absurd hrun nofun
  | assign => exact goesOn_bind fun _ => goesOn_bind fun _ => goesOn_pure rfl
  | clear | jump | finish => exact goesOn_bind fun _ => goesOn_pure rfl
  | cond test yes no =>
    have hparts := (forall_mem_cons.mp h).2
    refine goesOn_bind fun b => ?_
    split
    · exact goesOn_execOps e selector yes fun o ho => hparts o (mem_append_left _ ho)
    · exact goesOn_execOps e selector no fun o ho => hparts o (mem_append_right _ ho)
  | synchronized x body =>
    exact goesOn_bind fun _ => goesOn_execOps e selector body (forall_mem_cons.mp h).2
  | setState | yield | switch | guarded | rethrow => exact absurd (h _ mem_cons_self) nofun

/-- **Lockable ops never suspend.** -/
theorem goesOn_execOps (e : Engine) (selector : SymbolId) (ops : List Op) (h : Lockable ops) :
    GoesOn (execOps e selector ops) := by
  cases ops with
  | nil => exact goesOn_pure rfl
  | cons op ops =>
    intro m flow m' hrun
    rw [execOps] at hrun
    obtain ⟨flow₁, m₁, hop, hrest⟩ := of_bind_ok hrun
    have hfirst := op.goesOn_exec e selector (fun o ho => h o (mem_append_left _ ho)) m flow₁ m₁ hop
    cases flow₁ with
    | next =>
      exact goesOn_execOps e selector ops (fun o ho => h o (mem_append_right _ ho)) m₁ flow m' hrest
    | suspend => cases hfirst
    | dispatch | done => exact goesOn_pure rfl m₁ flow m' hrest

end

end GoesOn

/-! ## Machines give their locks back -/

theorem closes_attempts : Recorder.locks.Attempts fun _ => Closes where
  lift _ _ _ := .nil
  bind := Closes.bind
  eval _ _ _ := .nil
  attempt := Closes.attempt

theorem closes_passes {markers : Markers} :
    Recorder.locks.PassesOps false (Op.Tame markers) fun _ => Closes where
  toModular := closes_attempts.toModular
  eval := closes_attempts.lift
  own := closes_attempts.lift
  event _ := closes_attempts.pure _
  underLock h := h.underLock fun _ _ _ _ => rfl
  tryWith _ := closes_attempts.tryWith (fun _ _ => closes_attempts.lift _) fun _ _ h => h
  plain _ := nofun
  lockedOps {e selector _ body} hlockable hbody := by
    -- the code under the lock does not suspend, so the lock is released
    refine hbody.underLock fun m flow m' hrun => ?_
    rw [erase_recordOps] at hrun
    exact goesOn_execOps e selector body hlockable m flow m' hrun
  guardRound := closes_attempts.guardRound (fun _ => closes_attempts.pure _) closes_attempts.lift

/-- **A tame machine holds no lock when it stops.** -/
theorem Machine.Tame.closes {markers : Markers} {M : Machine} (h : M.Tame markers) (e : Engine) :
    Closes (M.record .locks e) :=
  Machine.record_passes closes_passes h e

/-! ## Generators -/

/-- The locks that the next advance of a generator takes and releases. -/
def Instance.locks (g : Instance) (h : Host) (fuel : Nat) (w : World) : List LockEvent :=
  (g.cls.advance.record .locks ⟨h, g.cls.tags, fuel⟩ ⟨g.vars, w⟩).1

/-- No generator of the class is left while it holds a lock. -/
structure GeneratorClass.FreesLocks (markers : Markers) (cls : GeneratorClass) : Prop where
  /-- at any depth, only ops that may stand under a lock do -/
  lockable : ∀ M ∈ cls.advance.machines, ∀ x body, .synchronized x body ∈ M.ops → Lockable body
  /-- no marker stands under a lock of a plain statement -/
  unmarked : ∀ M ∈ cls.advance.machines, ∀ s, .plain s ∈ M.ops →
    ∀ path x body loc, Lies [s] path (.synchronized x body loc) → ∀ inner t, Lies body inner t →
      t.isMarker markers = false
  /-- the locks are those of the run -/
  faithful : ∀ e, erase (cls.advance.record .locks e) = cls.advance.exec e
  /-- an advance that comes to an end, with a value or not, has released all locks that it took -/
  balanced : ∀ g : Instance, g.cls = cls → ∀ h fuel w r g' w', g.advance h fuel w = .ok (r, g') w' →
    LockEvent.Balanced (g.locks h fuel w)

theorem Machine.Tame.balanced {markers : Markers} {g g' : Instance}
    (htame : g.cls.advance.Tame markers) {h : Host} {fuel : Nat} {w w' : World}
    {r : Except Fault (Option Value)} (hadvance : g.advance h fuel w = .ok (r, g') w') :
    LockEvent.Balanced (g.locks h fuel w) := by
  obtain ⟨vars, hrun, -⟩ := Instance.advance_eq hadvance
  refine htame.closes _ _ ?_
  have herase := congrFun (Machine.erase_record .locks ⟨h, g.cls.tags, fuel⟩ g.cls.advance)
      ⟨g.vars, w⟩
  rw [hrun] at herase
  rw [erase] at herase
  rw [herase]
  cases r with
  | ok v => exact over_ok v _
  | error f => exact over_fault f _

/-- **Nothing suspends while a lock is held**: in a lowered class, code under locks stays in its
state and emits nothing, and every lock is released in the advance that took it. -/
theorem Procedure.lower_frees_locks (p : Procedure) (settings : Settings) (cls : GeneratorClass)
    (hlower : p.lower settings = .ok cls) : cls.FreesLocks settings.markers := by
  have htame := lower_tame hlower
  refine ⟨fun M hM x body hlock => ?_, fun M hM s hs _ x body loc hlock _ t ht => ?_,
    fun e => Machine.erase_record .locks e _, ?_⟩
  · have hop := (htame.machines M hM).ops _ hlock
    exact hop.1
  · have hop : (Op.plain s).Tame settings.markers := (htame.machines M hM).ops _ hs
    exact Stmt.isMarker_of_locked hop hlock ht
  · rintro g rfl h fuel w r g' w' hadvance
    exact htame.balanced hadvance

/-- A generator stays with its class. -/
theorem Session.cls_eq {cls : GeneratorClass} {past : List Event} {faults : List Fault}
    {g : Instance} (h : Session cls past faults g) : g.cls = cls := by
  induction h with
  | new hnew => exact (Instance.new_eq_ok hnew).1
  | @call past faults g c host fuel w a g' w' _ hcall ih =>
    cases hbuffered : g.buffered with
    | some => exact (Instance.same_of_reply (by rw [hbuffered]; rfl) hcall).1.trans ih
    | none =>
      obtain ⟨r₁, g₁, hadvance, hcls, -, -⟩ := Instance.advance_of_reply hbuffered hcall
      exact hcls.trans ((Instance.same_of_advance hadvance).1.trans ih)

/-- A procedure that leaves a loop from under a lock. -/
def Procedure.lockedBreak : Procedure where
  name := "locked"
  params := []
  returnType := none
  body := [.whileLoop (.bool true) (.block [.expr (.call "step" [.int 7]) .unknown,
    .synchronized (.int 1) [.synchronized (.int 2) [.brk none .unknown] .unknown] .unknown]
      .unknown) .unknown]
  location := .unknown

/-- The generator of that procedure, when its second value is asked for. -/
theorem Procedure.lower_frees_locks_lockedBreak : ∃ cls, lockedBreak.lower {} = .ok cls ∧
    ∃ past faults g r g' w', Session cls past faults g ∧
      g.advance (Functions.builtins.host 0) 9 .empty = .ok (r, g') w' ∧
      g.locks (Functions.builtins.host 0) 9 .empty = [.taken, .taken, .released, .released] ∧
      LockEvent.Balanced (g.locks (Functions.builtins.host 0) 9 .empty) := by
  have htrial : (lockedBreak.trial (Functions.builtins.host 0) 9 1).any (fun t =>
      (match t.generator.advance (Functions.builtins.host 0) 9 .empty with
        | .ok _ _ => true
        | .error _ _ => false) &&
      decide (t.generator.locks (Functions.builtins.host 0) 9 .empty = [.taken, .taken, .released,
        .released])) =
      true := by decide +kernel
  obtain ⟨t, hlower, hsession, hgood⟩ := session_of_trial htrial
  obtain ⟨hadvances, hlocks⟩ := Bool.and_eq_true_iff.mp hgood
  rcases hadvance : t.generator.advance (Functions.builtins.host 0) 9 .empty
    with ⟨⟨r, g'⟩, w'⟩ | ⟨e, w'⟩
  · exact ⟨t.cls, hlower, t.past, t.faults, t.generator, r, g', w', hsession, hadvance,
      of_decide_eq_true hlocks,
      (lower_frees_locks lockedBreak {} t.cls hlower).balanced t.generator hsession.cls_eq _ _ _ _ _
      _ hadvance⟩
  · rw [hadvance] at hadvances
    cases hadvances

end Resumable
