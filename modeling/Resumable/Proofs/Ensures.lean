import Resumable.Proofs.Passing
import Resumable.Proofs.Protocol

/-!
# What watched runs ensure

A ghost state follows the events of a watched run.

* `Watched.Ensures` says that the ghost state can follow all events of a run, and what holds of it
  and of the memory afterwards; a run that lacks fuel is only followed;
* there is one rule for each way to build a computation.
-/

namespace Resumable

open List

theorem Follows.of_append {σ : Type} {step : σ → Event → σ → Prop} {s u : σ}
    {events more : List Event} (h : Follows step s (events ++ more) u) :
    ∃ t, Follows step s events t ∧ Follows step t more u := by
  induction events generalizing s with
  | nil => exact ⟨s, .nil, h⟩
  | cons ev events ih =>
    cases h with
    | cons hstep hrest =>
      obtain ⟨t, hevents, hmore⟩ := ih hrest
      exact ⟨t, .cons hstep hevents, hmore⟩

namespace Watched

/-- What is to hold of a result, a ghost state and the memory. -/
abbrev Post (σ α : Type) := Except Fault α → σ → Memory → Prop

/-- What is to hold after a run. -/
def Post.Of {σ α : Type} (Q : Post σ α) (s : σ) : EStateM.Result Halt Memory α → Prop
  | .ok a m => Q (.ok a) s m
  | .error (.fault f) m => Q (.error f) s m
  | .error .outOfFuel _ => True

/-- A ghost state can follow the run, and something holds afterwards. -/
def Ensures {σ α : Type} (step : σ → Event → σ → Prop) (c : Watched Event α) (Q : Post σ α) (s : σ)
    (m : Memory) : Prop :=
  ∃ s', Follows step s (c m).1 s' ∧ Q.Of s' (c m).2

/-- What is to hold before the second part of a run. -/
def Post.before {σ α β : Type} (step : σ → Event → σ → Prop) (f : α → Watched Event β)
    (Q : Post σ β) : Post σ α
  | .ok a, s, m => Ensures step (f a) Q s m
  | .error e, s, m => Q (.error e) s m

variable {σ α β : Type} {step : σ → Event → σ → Prop} {Q Q' : Post σ α} {s s' : σ} {m m' : Memory}

theorem Ensures.mono {c : Watched Event α} (h : Ensures step c Q s m)
    (hQ : ∀ r s m, Q r s m → Q' r s m) : Ensures step c Q' s m := by
  obtain ⟨s', hfollows, hpost⟩ := h
  refine ⟨s', hfollows, ?_⟩
  rcases hr : (c m).2 with ⟨a, m'⟩ | ⟨f | _, m'⟩
  · rw [hr] at hpost
    exact hQ _ _ _ hpost
  · rw [hr] at hpost
    exact hQ _ _ _ hpost
  · trivial

theorem ensures_pure {a : α} (h : Q (.ok a) s m) : Ensures step (pure a) Q s m := ⟨s, .nil, h⟩

/-- The second part starts in the ghost state that the first one ends in. -/
theorem ensures_bind {c : Watched Event α} {f : α → Watched Event β} {Q : Post σ β}
    (h : Ensures step c (Q.before step f) s m) : Ensures step (c >>= f) Q s m := by
  show ∃ s', Follows step s (Watched.bind c f m).1 s' ∧ Q.Of s' (Watched.bind c f m).2
  unfold Ensures at h
  unfold Watched.bind
  rcases hc : c m with ⟨events, ⟨a, m'⟩ | ⟨f' | _, m'⟩⟩
  · rw [hc] at h
    obtain ⟨t, hfirst, s', hsecond, hpost⟩ := h
    exact ⟨s', hfirst.append hsecond, hpost⟩
  · rw [hc] at h
    exact h
  · rw [hc] at h
    exact h

theorem ensures_log {ev : Event} {Q : Post σ Unit} (hstep : step s ev s') (hQ : Q (.ok ()) s' m) :
    Ensures step (log ev) Q s m :=
  ⟨s', .cons hstep .nil, hQ⟩

variable {c : Run α} {P : SymbolId → Prop}

/-- A computation of the machine itself shows nothing. -/
theorem ensures_lift (h : Q.Of s (c m)) : Ensures step (liftM c : Watched Event α) Q s m :=
  ⟨s, .nil, h⟩

/-- A computation that touches few variables, and what it gives. -/
theorem ensures_touches_eq (hc : c.Touches P)
    (hQ : ∀ r m', (∀ x, ¬ P x → m'.vars.get? x = m.vars.get? x) →
      (∀ a, r = .ok a → c m = .ok a m') → Q r s m') :
    Ensures step (liftM c : Watched Event α) Q s m := by
  have hsame := hc m
  refine ensures_lift ?_
  rcases hr : c m with ⟨a, m'⟩ | ⟨f | _, m'⟩
  · rw [hr] at hsame
    refine hQ _ _ hsame ?_
    rintro _ ⟨⟩
    exact hr
  · rw [hr] at hsame
    exact hQ _ _ hsame nofun
  · trivial

/-- A computation that touches few variables. -/
theorem ensures_touches (hc : c.Touches P)
    (hQ : ∀ r m', (∀ x, ¬ P x → m'.vars.get? x = m.vars.get? x) → Q r s m') :
    Ensures step (liftM c : Watched Event α) Q s m :=
  ensures_touches_eq hc fun r m' hsame _ => hQ r m' hsame

/-- A step of a machine that is not at fault. -/
theorem ensures_own {a : α} (hc : c m = .ok a m') (hQ : Q (.ok a) s m') :
    Ensures step (logFault .broke c) Q s m := by
  refine ⟨s, ?_, ?_⟩
  · rw [logFault, hc]
    exact .nil
  · rw [logFault, hc]
    exact hQ

theorem ensures_attempt {c : Watched Event α} {Q : Post σ (Except Fault α)}
    (h : Ensures step c (fun r => Q (.ok r)) s m) : Ensures step (attempt c) Q s m := by
  obtain ⟨s', hfollows, hpost⟩ := h
  refine ⟨s', hfollows, ?_⟩
  unfold attempt Run.attempt
  rcases hr : (c m).2 with ⟨a, m'⟩ | ⟨f | _, m'⟩
  · rw [hr] at hpost
    exact hpost
  · rw [hr] at hpost
    exact hpost
  · trivial

/-- What is to hold after a step of a loop with that invariant. -/
def Post.round (I : β → σ → Memory → Prop) (Q : Post σ α) : Post σ (β ⊕ α)
  | .ok (.inl b), s, m => I b s m
  | .ok (.inr a), s, m => Q (.ok a) s m
  | .error f, s, m => Q (.error f) s m

/-- A loop ensures what every step ensures that starts with the invariant. -/
theorem ensures_loop {body : β → Watched Event (β ⊕ α)} {I : β → σ → Memory → Prop}
    (hbody : ∀ b s m, I b s m → Ensures step (body b) (Q.round I) s m) (fuel : Nat) (b : β)
    (h : I b s m) : Ensures step (loop body fuel b) Q s m := by
  induction fuel generalizing b s m with
  | zero => exact ⟨s, .nil, trivial⟩
  | succ fuel ih =>
    obtain ⟨t, hfollows, hpost⟩ := hbody b s m h
    unfold Ensures
    rcases hr : body b m with ⟨events, ⟨b' | a, m'⟩ | ⟨f | _, m'⟩⟩
    · rw [hr] at hfollows hpost
      obtain ⟨s', hmore, hlast⟩ := ih b' hpost
      simp only [loop, hr]
      exact ⟨s', hfollows.append hmore, hlast⟩
    · rw [hr] at hfollows hpost
      simp only [loop, hr]
      exact ⟨t, hfollows, hpost⟩
    · rw [hr] at hfollows hpost
      simp only [loop, hr]
      exact ⟨t, hfollows, hpost⟩
    · rw [hr] at hfollows
      simp only [loop, hr]
      exact ⟨t, hfollows, trivial⟩

/-- What is to hold after a step that is repeated until it gives a result. -/
def Post.again (I : σ → Memory → Prop) (Q : Post σ α) : Post σ (Option α)
  | .ok none, s, m => I s m
  | .ok (some a), s, m => Q (.ok a) s m
  | .error f, s, m => Q (.error f) s m

theorem ensures_repeatUntil {body : Watched Event (Option α)} {I : σ → Memory → Prop}
    (hbody : ∀ s m, I s m → Ensures step body (Q.again I) s m) (fuel : Nat) (h : I s m) :
    Ensures step (repeatUntil fuel body) Q s m := by
  refine ensures_loop (I := fun _ => I)
    (fun _ s m h => ensures_bind ((hbody s m h).mono ?_)) fuel () h
  intro r s m hr
  rcases r with f | (_ | a)
  · exact hr
  · exact ensures_pure hr
  · exact ensures_pure hr

end Watched

/-! ## Lists of ops -/

open Watched

variable {σ : Type} {step : σ → Event → σ → Prop} {Q : Post σ Flow} {s : σ} {m : Memory}
  {e : Engine} {selector : SymbolId}

/-- What is to hold before ops that follow. -/
def Watched.Post.then (step : σ → Event → σ → Prop) (e : Engine) (selector : SymbolId)
    (ops : List Op) (Q : Post σ Flow) : Post σ Flow
  | .ok .next, s, m => Ensures step (recordOps .events e selector ops) Q s m
  | r, s, m => Q r s m

theorem ensures_ops_cons {op : Op} {ops : List Op}
    (h : Ensures step (op.record .events e selector) (Q.then step e selector ops) s m) :
    Ensures step (recordOps .events e selector (op :: ops)) Q s m := by
  refine ensures_bind (h.mono fun r s m hr => ?_)
  rcases r with f | (_ | _ | v | _)
  · exact hr
  · exact hr
  · exact ensures_pure hr
  · exact ensures_pure hr
  · exact ensures_pure hr

/-! ## Single ops -/

theorem Run.touches_chooseArm {P : SymbolId → Prop} (h : Host) (v : Value) (arms : List SwitchArm)
    (harms : ∀ arm ∈ arms, ∀ x ∈ writesOf arm.labels, P x) :
    (Run.chooseArm h v arms).Touches P := by
  have harmOf : (Run.armOf h v arms).Touches P := by
    induction arms with
    | nil => exact touches_pure none
    | cons arm arms ih =>
      refine (anyLabel_touches h v arm.labels (harms arm mem_cons_self)).bind fun b => ?_
      cases b with
      | true => exact touches_pure _
      | false => exact ih fun a ha => harms a (mem_cons_of_mem _ ha)
  refine harmOf.bind fun r => ?_
  cases r with
  | some | none => exact touches_pure _

/-- A switch goes to one of its arms. -/
theorem Run.chooseArm_mem (h : Host) (v : Value) (arms : List SwitchArm) :
    (Run.chooseArm h v arms).Returns fun r _ => ∀ tag, r = some tag →
      ∃ arm ∈ arms, arm.target = tag := by
  have harmOf : (Run.armOf h v arms).Returns fun r _ => ∀ tag, r = some tag →
      ∃ arm ∈ arms, arm.target = tag := by
    induction arms with
    | nil => exact returns_pure nofun
    | cons arm arms ih =>
      refine .bind fun b => ?_
      cases b with
      | true =>
        refine returns_pure fun _ => ?_
        rintro _ ⟨⟩
        exact ⟨arm, mem_cons_self, rfl⟩
      | false =>
        intro m r m' hrun tag htag
        obtain ⟨arm', harm', htarget⟩ := ih m r m' hrun tag htag
        exact ⟨arm', mem_cons_of_mem _ harm', htarget⟩
  intro m r m' hrun tag htag
  obtain ⟨found, m₁, hfound, hrest⟩ := of_bind_ok hrun
  cases found with
  | some =>
    cases hrest
    exact harmOf m _ m' hfound tag htag
  | none =>
    cases hrest
    obtain ⟨arm, harm, rfl⟩ := Option.map_eq_some_iff.mp htag
    exact ⟨arm, mem_of_find?_eq_some harm, rfl⟩

variable {s' : σ} {ops : List Op}

/-- A store of a value that is known. -/
theorem ensures_const {x : SymbolId} {value : Expr} {v : Value}
    (hvalue : value.eval e.host m = .ok v m) (hstep : step s (.assign x v) s')
    (hops : Ensures step (recordOps .events e selector ops) Q s'
      { m with vars := m.vars.set x v }) :
    Ensures step (recordOps .events e selector (.assign x value :: ops)) Q s m := by
  refine ensures_ops_cons (ensures_bind (ensures_lift ?_))
  rw [hvalue]
  exact ensures_bind
    (ensures_log hstep (ensures_bind (ensures_lift (ensures_pure hops))))

theorem setState_eq {tags : TagTable} {tag : Tag} {state : StateId}
    (htarget : tags.target? tag = some state) (m : Memory) : Run.setState tags selector tag m =
      .ok () { m with vars := m.vars.set selector (.ofState state.number) } := by
  rw [Run.setState, htarget]
  rfl

/-- Control goes to a tag. -/
theorem ensures_goto {tag : Tag} {state : StateId} (htarget : e.tags.target? tag = some state)
    (hstep : step s (.goto selector tag) s')
    (hQ : Q (.ok .dispatch) s' { m with vars := m.vars.set selector (.ofState state.number) }) :
    Ensures step ((Op.jump tag).record .events e selector) Q s m :=
  ensures_bind (ensures_log hstep
    (ensures_bind (ensures_own (setState_eq htarget m) (ensures_pure hQ))))

/-- The machine ends. -/
theorem ensures_end (hstep : step s (.finish selector) s')
    (hQ : Q (.ok .done) s' { m with vars := m.vars.set selector (.ofState 0) }) :
    Ensures step (Op.finish.record .events e selector) Q s m :=
  ensures_bind (ensures_log hstep (ensures_bind (ensures_lift (ensures_pure hQ))))

end Resumable
