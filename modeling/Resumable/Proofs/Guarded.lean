import Resumable.Proofs.Safe

/-!
# Guards and machines are safe

What holds of ops holds of states, of the guards that they run, and so of whole machines.

* `Plan.Guarding` is the invariant while a machine is busy with a guard, whose phase goes from the
  body over the resources and the handlers to the final code;
* `Plan.LaidAt.ensures`: states keep the invariant, and run nested machines that do so;
* `Plan.Tiles.ensures`: so does a machine, from any state in which it may be resumed.
-/

namespace Resumable

open List

open Function (update update_eq_self update_of_ne update_self)

namespace Lowering

namespace Plan

open Watched

variable {ops : List Op} {place : Nat} {jump : Option Tag} {failure : Option Value}
  {held : SymbolId → Value}

variable {Γ : Plan} (hΓ : Γ.Sound) {m : MachineId} {finals : List MachineId} {ψ₀ ψ ψ' : Phases}
  {vars vars' : Store} {M : Memory} {e : Engine} {ev : Event} {G : Site} {φ φ' : Phase}

/-! ## Busy machines -/

/-- A machine is busy with a guard, which is in a certain phase. -/
structure Guarding (Γ : Plan) (G : Site) (ψ₀ : Phases) (φ : Phase) (ψ : Phases)
    (vars : Store) : Prop where
  mem : G ∈ Γ.sites
  steady : Γ.Steady G.outer ψ vars
  isOpen : Γ.Open ψ G.outer
  busy : Γ.Busy ψ G (· = φ)
  frame : ψ₀.Frame G.outer ψ
  selector : vars.get? (Γ.selectorOf G.outer) = some (.ofState (G.place + 1))

theorem Busy.imp {P Q : Phase → Prop} (h : Γ.Busy ψ G P) (hPQ : ∀ φ, P φ → Q φ) : Γ.Busy ψ G Q :=
  ⟨hPQ _ h.phase, h.others, h.finals⟩

theorem Guarding.facts (h : Γ.Guarding G ψ₀ φ ψ vars) : Γ.Facts G vars φ := by
  have hφ : ψ G.id = φ := h.busy.phase
  exact hφ ▸ h.steady.facts G h.mem

theorem Guarding.loose (h : Γ.Guarding G ψ₀ φ ψ vars) :
    ∀ G' ∈ Γ.sites, G' ≠ G → (ψ G'.id).Loose := by
  intro G' hG' hne
  by_cases hid : G'.id = G.outer
  · rw [hid]
    exact .inl (h.isOpen G' hG' hid)
  · by_cases houter : G'.outer = G.outer
    · exact .inr (h.busy.others G' hG' houter hne)
    · exact h.steady.loose G' hG' hid houter

include hΓ

/-- The guard does something of its own. -/
theorem Guarding.step (h : Γ.Guarding G ψ₀ φ ψ vars) (hev : Γ.Owned G ev)
    (hstep : (Γ.guard G).Step Γ.tags Γ.kept φ ev φ') : Γ.Step ψ ev (update ψ G.id φ') := by
  have hφ : ψ G.id = φ := h.busy.phase
  exact step_owned hΓ h.mem hev (h.loose) (hφ ▸ hstep)

/-- The guard goes to another phase, and changes its own variables. -/
theorem Guarding.move (h : Γ.Guarding G ψ₀ φ ψ vars)
    (hsame : ∀ x, ¬ Γ.Slot G x → ¬ Γ.Free x → vars'.get? x = vars.get? x)
    (hfacts : Γ.Facts G vars' φ') (hquiet : ¬ φ'.Active → Γ.Quiet ψ G.id)
    (hrest : φ'.Active → Γ.Rest (update ψ G.id φ') vars' G.id) :
    Γ.Guarding G ψ₀ φ' (update ψ G.id φ') vars' := by
  have hlies := hΓ.lies G h.mem
  have hm := h.steady.alive.1
  refine ⟨h.mem, h.steady.move hΓ h.mem rfl (fun x hx _ => hsame x hx) hfacts hquiet hrest,
    fun G' hG' hid => ?_,
    ⟨update_self .., fun G' hG' houter hne => ?_, fun g hg => ?_⟩,
    h.frame.update hlies.outer_lt _, ?_⟩
  · rw [update_of_ne (hΓ.outer_ne h.mem)]
    exact h.isOpen G' hG' hid
  · rw [hΓ.update_ne h.mem hG' hne]
    exact h.busy.others G' hG' houter hne
  · obtain ⟨G', hG', rfl, houter, hfinal⟩ := h.busy.finals g hg
    refine ⟨G', hG', rfl, houter, ?_⟩
    rw [hΓ.update_ne h.mem hG' fun heq => hΓ.not_mem_finals h.mem (heq ▸ hg)]
    exact hfinal
  · rw [hsame _ ?_ (not_free_of_steers (hΓ.selectorOf_steers hm)), h.selector]
    rintro (hslot | ⟨hslot, -⟩)
    · exact hΓ.outer_ne h.mem (hΓ.selectorOf_mem_steering hm h.mem hslot)
    · exact hlies.resources _ hslot (hΓ.selectorOf_steers hm)

/-- The guard stays in its phase. -/
theorem Guarding.stay (h : Γ.Guarding G ψ₀ φ ψ vars)
    (hsame : ∀ x, ¬ Γ.Slot G x → ¬ Γ.Free x → vars'.get? x = vars.get? x)
    (hfacts : Γ.Facts G vars' φ) (hnot : ¬ φ.Active) : Γ.Guarding G ψ₀ φ ψ vars' := by
  have hφ : ψ G.id = φ := h.busy.phase
  have hmove := h.move hΓ hsame hfacts (fun _ => h.steady.dead G h.mem (hφ ▸ hnot)) fun hactive =>
    absurd hactive hnot
  have hself : update ψ G.id φ = ψ := by rw [← hφ, update_eq_self]
  exact hself ▸ hmove

/-! ### Into the nested machine and out of it -/

/-- The machine of the guard is ready to run. -/
theorem Guarding.nested (h : Γ.Guarding G ψ₀ φ ψ vars) (hφ : φ.Inside) :
    Γ.Waiting G.id ψ ψ vars := by
  have hphase : ψ G.id = φ := h.busy.phase
  have hne := hΓ.outer_ne h.mem
  have halive : Γ.Alive ψ G.id := ⟨.inr ⟨G, h.mem, rfl⟩, fun _ _ _ => hphase ▸ hφ.active⟩
  have hrest : Γ.Rest ψ vars G.outer :=
    ⟨G.place, .guard G.id G.finals, h.selector, (hΓ.lies G h.mem).guard, G, h.mem, rfl, rfl, rfl,
      h.busy.imp fun _ heq => heq ▸ hφ.active⟩
  refine ⟨⟨halive, h.steady.facts, fun G' hG' hid _ => h.loose G' hG' fun heq => hid (heq ▸ rfl),
    h.steady.dead, fun m' hm' hne' => ?_⟩, fun _ _ _ => hphase ▸ hφ,
      h.steady.rest G.id halive hne.symm,
    fun G' hG' houter hactive => ?_, .refl ψ⟩
  · by_cases heq : m' = G.outer
    · exact heq ▸ hrest
    · exact h.steady.rest m' hm' heq
  · exact hactive.inside (h.loose G' hG' fun heq => hne (heq ▸ houter))

/-- The machine of the guard has stopped, and the machine around it is in charge again. -/
theorem Guarding.leave (h : Γ.Guarding G ψ₀ φ ψ vars) (hsteady : Γ.Steady G.id ψ' vars')
    (hquiet : Γ.Quiet ψ' G.id) (hframe : ψ.Frame G.id ψ') (hfacts : Γ.Facts G vars' φ')
    (hnot : ¬ φ'.Active) : Γ.Guarding G ψ₀ φ' (update ψ' G.id φ') vars' := by
  have hlies := hΓ.lies G h.mem
  have hne := hΓ.outer_ne h.mem
  have hactive := hsteady.alive.2 G h.mem rfl
  have houter : Γ.Alive ψ' G.outer := alive_outer hΓ hsteady.dead h.mem hactive
  obtain ⟨hselector, hbusy⟩ := (hsteady.rest G.outer houter hne).busy h.mem hactive
  refine ⟨h.mem, ⟨⟨houter.1, fun G' hG' hid => ?_⟩, fun G' hG' => ?_, fun G' hG' hid ho => ?_,
    fun G' hG' hnot' => ?_,
    fun m' hm' hne' => ?_⟩, fun G' hG' hid => ?_,
      ⟨update_self .., fun G' hG' ho hne' => ?_, ?_⟩,
    (h.frame.trans hlies.outer_lt hframe).update hlies.outer_lt _, hselector⟩
  · rw [update_of_ne hne]
    exact houter.2 G' hG' hid
  · by_cases heq : G' = G
    · rw [heq, update_self]
      exact hfacts
    · rw [hΓ.update_ne h.mem hG' heq]
      exact hsteady.facts G' hG'
  · have hid' : G'.id ≠ G.id := fun heq => ho (hΓ.unique G' hG' G h.mem heq ▸ rfl)
    rw [update_of_ne hid']
    by_cases hin : G'.outer = G.id
    · exact .inr (hquiet G' hG' hin)
    · exact hsteady.loose G' hG' hid' hin
  · -- a guard that is not active has nothing active in it
    have hdead : Γ.Quiet ψ' G'.id := by
      by_cases heq : G' = G
      · exact heq ▸ hquiet
      · rw [hΓ.update_ne h.mem hG' heq] at hnot'
        exact hsteady.dead G' hG' hnot'
    intro G'' hG'' ho
    by_cases heq : G'' = G
    · have houtside := heq ▸ hdead G'' hG'' ho
      exact absurd houtside hactive.not_outside
    · rw [hΓ.update_ne h.mem hG'' heq]
      exact hdead G'' hG'' ho
  · have hid : m' ≠ G.id := fun hid => hnot (by
      have hactive' := hm'.2 G h.mem hid.symm
      rwa [hid, update_self] at hactive')
    have hm'' : Γ.Alive ψ' m' :=
      ⟨hm'.1, fun G' hG' hid' => update_of_ne hid φ' ψ' ▸ hm'.2 G' hG' hid'⟩
    obtain ⟨place, z, hsel, hstands, hat⟩ := hsteady.rest m' hm'' hid
    refine ⟨place, z, hsel, hstands, hat.congr (update_of_ne hid ..)
      fun G' hG' ho => .inl ?_⟩
    exact hΓ.update_ne h.mem hG' fun heq => hne' (ho.symm.trans (heq ▸ rfl))
  · rw [update_of_ne hne, hframe.below _ hlies.outer_lt]
    exact h.isOpen G' hG' hid
  · rw [hΓ.update_ne h.mem hG' hne']
    exact hbusy.others G' hG' ho hne'
  · intro g hg
    obtain ⟨G', hG', rfl, ho, hfinal⟩ := hbusy.finals g hg
    refine ⟨G', hG', rfl, ho, ?_⟩
    rw [hΓ.update_ne h.mem hG' fun heq => hΓ.not_mem_finals h.mem (heq ▸ hg)]
    exact hfinal

/-! ### Resources -/

omit hΓ in
/-- A handler sees every fault but those that are not for it. -/
theorem caught_of (f : Fault) {Q : Post Phases Value}
    (hQ : ∀ v w, f.isCatchable → (∀ u, f = .thrown u → u = v) → Q (.ok v) ψ { M with world := w })
    (hfault : f.isCatchable = false → Q (.error f) ψ M) : Q.Of ψ (Run.ofEffect f.caught M) := by
  cases f with
  | thrown v =>
    refine hQ v M.world rfl ?_
    rintro _ ⟨⟩
    rfl
  | noSuchElement => exact hQ _ _ rfl nofun
  | _ => exact hfault rfl

omit hΓ in
/-- What happens in the world alone leaves variables as they are. -/
theorem ensures_world_attempt {α : Type} {c : Run α} {Q : Post Phases (Except Fault α)}
    (hc : c.Touches fun _ => False) (hQ : ∀ r M', (∀ x, M'.vars.get? x = M.vars.get? x) →
      Q (.ok r) ψ M') :
    Ensures Γ.Step (liftM (Run.attempt c) : Watched Event (Except Fault α)) Q ψ M := by
  have hsame := hc M
  refine ensures_lift ?_
  unfold Run.attempt
  rcases hr : c M with ⟨a, M'⟩ | ⟨f | _, M'⟩
  · rw [hr] at hsame
    exact hQ _ _ fun x => hsame x id
  · rw [hr] at hsame
    exact hQ _ _ fun x => hsame x id
  · trivial

/-- What holds after the resources of a guard have been closed. -/
def Closed (Γ : Plan) (G : Site) (ψ₀ : Phases) (held : SymbolId → Value) (jump : Option Tag)
    (before : Option Value) :
    Post Phases (Option Value)
  | .ok failure, ψ, M => (∀ p, before = some p → failure = some p) ∧
    ∃ rest, Guard.Empty Γ.kept held rest ∧
      Γ.Guarding G ψ₀ (.closing rest held failure jump) ψ M.vars
  | .error f, _, _ => f.isCatchable = false

theorem ensures_closeFields {skipped xs : List SymbolId}
    (h : Γ.Guarding G ψ₀ (.closing (skipped ++ xs) held failure jump) ψ M.vars)
    (hskipped : Guard.Empty Γ.kept held skipped) (hnodup : xs.Nodup) :
    Ensures Γ.Step (Recorder.events.closeFields e.host failure xs)
      (Γ.Closed G ψ₀ held jump failure) ψ M := by
  induction xs generalizing skipped failure ψ M with
  | nil => exact ensures_pure ⟨fun _ => id, skipped, hskipped, List.append_nil skipped ▸ h⟩
  | cons x xs ih =>
    obtain ⟨hwaits, hholding, hmem⟩ := h.facts
    have hlies := hΓ.lies G h.mem
    have hx : x ∈ G.fields.resources := hmem x (by simp)
    have hsame : ∀ y, ¬ Γ.Slot G y → ¬ Γ.Free y → (M.vars.set x .null).get? y = M.vars.get? y := by
      refine fun y hslot hfree => get?_set_ne (fun heq => ?_) _
      subst heq
      refine hfree ⟨hlies.resources y hx, fun hkept => hslot (.inr ⟨hx, hkept⟩)⟩
    have hwaits' : Γ.Waits G (M.vars.set x .null) none jump := by
      have hne : ∀ y ∈ G.steering, y ≠ x :=
        fun y hy heq => hlies.resources x hx (heq ▸ hlies.steers y hy)
      exact hwaits.congr (get?_set_ne (hne _ (by simp [Site.steering])) _)
        (get?_set_ne (hne _ (by simp [Site.steering])) _)
    obtain ⟨v, hv⟩ : ∃ v, v = (M.vars.get? x).getD .null := ⟨_, rfl⟩
    have hheld : Γ.kept x → v = held x := fun hkept => by
      rw [hv, hholding x (by simp) hkept]
      rfl
    have htake : Run.takeField x M = .ok v { M with vars := M.vars.set x .null } := hv ▸ rfl
    refine ensures_bind (ensures_lift ?_)
    rw [htake]
    show Ensures _ _ _ _ _
    cases hnull : v.isNull with
    | true =>
      -- the field was empty, and is left out
      have hempty : Guard.Empty Γ.kept held (skipped ++ [x]) := by
        intro y hy hkept
        rcases mem_append.mp hy with hy | hy
        · exact hskipped y hy hkept
        · obtain rfl := mem_singleton.mp hy
          rw [← hheld hkept]
          cases v <;> first | rfl | cases hnull
      rw [if_pos rfl]
      refine ih ?_ hempty hnodup.of_cons
      rw [List.append_assoc]
      refine h.stay hΓ hsame ⟨hwaits', fun y hy hkept => ?_, hmem⟩ id
      by_cases heq : y = x
      · subst heq
        rw [get?_set_self, hempty y (by simp) hkept]
      · exact (get?_set_ne heq _).trans (hholding y hy hkept)
    | false =>
      have hclosed : ∀ (failure' : Option Value) {M' : Memory},
          (∀ y, M'.vars.get? y = (M.vars.set x .null).get? y) →
          Γ.Step ψ (.close x v failure')
            (update ψ G.id (.closing xs held (failure.or failure') jump)) ∧
          Γ.Guarding G ψ₀ (.closing ([] ++ xs) held (failure.or failure') jump)
            (update ψ G.id (.closing xs held (failure.or failure') jump)) M'.vars := by
        intro failure' M' hvars
        have hφ : ψ G.id = _ := h.busy.phase
        refine ⟨h.step hΓ hx (.close hskipped hnull hheld), h.move hΓ (fun y hslot hfree => ?_)
          ⟨hwaits'.congr (hvars _) (hvars _), fun y hy hkept => ?_,
            fun y hy => hmem y (by simp [show y ∈ xs from hy])⟩
          (fun _ => h.steady.dead G h.mem (hφ ▸ id)) False.elim⟩
        · exact (hvars y).trans (hsame y hslot hfree)
        · have hne : y ≠ x := fun heq => (nodup_cons.mp hnodup).1 (heq ▸ hy)
          exact (hvars y).trans
            ((get?_set_ne hne _).trans (hholding y (by simp [show y ∈ xs from hy]) hkept))
      rw [if_neg (by decide)]
      refine ensures_bind (ensures_world_attempt (Run.touches_ofEffect _) fun r M' hvars => ?_)
      rcases r with f | a
      · refine ensures_bind (ensures_lift (caught_of f (fun failure' w _ _ => ?_) id))
        obtain ⟨hstep, hguarding⟩ := hclosed (some failure') hvars
        refine ensures_bind (ensures_log hstep ?_)
        cases failure with
        | none =>
          refine (ih (M := { M' with world := w }) hguarding (forall_mem_nil _) hnodup.of_cons).mono
            fun r _ _ hr => ?_
          cases r with
          | ok => exact ⟨fun p hp => absurd hp.symm (Option.some_ne_none p), hr.2⟩
          | error => exact hr
        | some p =>
          obtain ⟨w', hw⟩ : ∃ w', (liftM (World.addSuppressed p failure') : Run Unit)
              { M' with world := w } =
              .ok () { M' with world := w' } := by
            cases p <;> exact ⟨_, rfl⟩
          refine ensures_bind (ensures_lift ?_)
          rw [hw]
          exact ih hguarding (forall_mem_nil _) hnodup.of_cons
      · obtain ⟨hstep, hguarding⟩ := hclosed none hvars
        rw [Option.or_none] at hstep hguarding
        exact ensures_bind (ensures_log hstep (ih hguarding (forall_mem_nil _) hnodup.of_cons))

/-- All resources of a guard are closed. -/
theorem ensures_closeResources {xs : List SymbolId}
    (h : Γ.Guarding G ψ₀ (.closing xs held failure jump) ψ M.vars) (hnodup : xs.Nodup) :
    Ensures Γ.Step (Recorder.events.closeFields e.host failure xs)
      (Γ.Closed G ψ₀ held jump failure) ψ M := by
  have hskipped : Γ.Guarding G ψ₀ (.closing ([] ++ xs) held failure jump) ψ M.vars := h
  exact ensures_closeFields hΓ hskipped nofun hnodup

/-! ### Handlers and the end of a guard -/

/-- The guard is through with its machine, and goes to its final code with that failure and tag. -/
def Through (Γ : Plan) (failure : Option Value) (jump : Option Tag) : Phase → Prop
  | .leaving failure' jump' => failure' = failure ∧ jump' = jump
  | .closing rest held failure' jump' =>
    Guard.Empty Γ.kept held rest ∧ failure' = none ∧ failure = none ∧ jump' = jump
  | _ => False

/-- What holds after one stay in the machine of a guard. -/
def Round (Γ : Plan) (G : Site) (ψ₀ : Phases) : Post Phases (Option Flow)
  | .ok none, ψ, M => ∃ φ, φ.Inside ∧ Γ.Guarding G ψ₀ φ ψ M.vars
  | .ok (some .next), ψ, M =>
    ∃ φ failure jump, Γ.Through failure jump φ ∧ Γ.Guarding G ψ₀ φ ψ M.vars
  | .ok (some (.suspend _)), ψ, M => Γ.Resting ψ M.vars ∧ Γ.Alive ψ G.outer
  | .ok (some _), _, _ => False
  | .error f, _, _ => f.isCatchable = false

/-- A failure goes to the first handler that takes it, or has to wait. -/
theorem ensures_enterHandler (he : e.tags = Γ.tags) {rest : List SymbolId} {failure : Value}
    (h : Γ.Guarding G ψ₀ (.closing rest held (some failure) jump) ψ M.vars)
    (hrest : Guard.Empty Γ.kept held rest) :
    Ensures Γ.Step (Recorder.events.enterHandler e.tags G.selector G.fields failure)
      (Γ.Round G ψ₀) ψ M := by
  have hlies := hΓ.lies G h.mem
  have hφ : ψ G.id = _ := h.busy.phase
  have hquiet : Γ.Quiet ψ G.id := h.steady.dead G h.mem (hφ ▸ id)
  have hwaits := h.facts.1
  obtain ⟨⟨hselector, hinHandler, hpending⟩, ⟨hinHandler', hpending'⟩, hpendingJump⟩ :=
    Guard.steering_ne (hΓ.regular G h.mem).nodup
  refine ensures_bind (ensures_lift ?_)
  show Ensures _ _ _ _ _
  cases hhandler : (Γ.guard G).handler? failure with
  | none =>
    rw [show (G.fields.handlers.find? fun handler => failure.isAnyOf handler.types) = none
      from hhandler]
    have hstep : Γ.Step ψ (.wait G.fields.pending failure)
        (update ψ G.id (.leaving (some failure) none)) :=
      h.step hΓ rfl (.unhandled hrest hhandler)
    refine ensures_bind (ensures_log hstep (ensures_bind (ensures_lift (ensures_pure
      ⟨.leaving (some failure) none, some failure, none, ⟨rfl, rfl⟩,
        h.move hΓ (fun x hslot _ => ?_) ⟨?_, ?_, exits_none⟩ (fun _ => hquiet) False.elim⟩))))
    · have hsteer : ∀ y ∈ G.steering, x ≠ y := fun y hy heq => hslot (.inl (heq ▸ hy))
      exact (get?_set_ne (hsteer _ (by simp [Site.steering])) _).trans
        (get?_set_ne (hsteer _ (by simp [Site.steering])) _)
    · simp
    · simp [hpendingJump.symm, jumpValue]
  | some handler =>
    rw [show (G.fields.handlers.find? fun handler => failure.isAnyOf handler.types) = some handler
      from hhandler]
    obtain ⟨hparam, place, htarget, -, hstands⟩ :=
      hlies.handlers handler (mem_of_find?_eq_some hhandler)
    have hstep : Γ.Step ψ (.handle G.selector handler.entry failure)
        (update ψ G.id .handling) :=
      h.step hΓ rfl (.handle hrest hhandler)
    have hne : ∀ y ∈ G.steering, y ≠ handler.param :=
      fun y hy heq => hparam.1 (heq ▸ hlies.steers y hy)
    refine ensures_bind (ensures_lift (ensures_bind (ensures_lift (ensures_bind
      (ensures_log hstep
        (ensures_bind (ensures_own (setState_eq (he ▸ htarget) _) (ensures_pure
      ⟨.handling, trivial, h.move hΓ (fun x hslot hfree => ?_) ⟨?_, ?_, ?_, exits_none⟩
        (fun hnot => absurd trivial hnot) fun _ =>
          ⟨place, .code [], ?_, hstands, ?_, inFinals_nil⟩⟩))))))))
    · have hsteer : ∀ y ∈ G.steering, x ≠ y := fun y hy heq => hslot (.inl (heq ▸ hy))
      have hx : x ≠ handler.param := fun heq => hfree (heq ▸ hparam)
      simp only [Store.get?_set]
      rw [if_neg (hsteer _ mem_cons_self), if_neg hx, if_neg (hsteer _ (by simp [Site.steering])),
        if_neg (hsteer _ (by simp [Site.steering]))]
    · simp [hselector.symm, hne _ (show G.fields.inHandler ∈ G.steering by simp [Site.steering])]
    · simp only [Store.get?_set]
      rw [if_neg hinHandler.symm, if_neg (hne _ (by simp [Site.steering])), if_neg hinHandler'.symm,
        if_neg hpendingJump]
      exact hwaits.pending
    · simp [hpending.symm, hne _ (show G.fields.pendingJump ∈ G.steering by simp [Site.steering]),
        hpending'.symm, jumpValue]
    · rw [hΓ.selectorOf_id h.mem]
      simp
    · intro G' hG' houter
      rw [hΓ.update_ne h.mem hG' fun heq => hΓ.outer_ne h.mem (heq ▸ houter)]
      exact hquiet G' hG' houter

/-! ### A stay in the nested machine -/

/-- What holds when a machine stops. -/
def Stopped (Γ : Plan) (m : MachineId) (ψ₀ : Phases) : Post Phases (Option Value)
  | .ok (some _), ψ, M => Γ.Resting ψ M.vars ∧ Γ.Alive ψ m
  | .ok none, ψ, M => Γ.Finished m ψ₀ ψ M.vars
  | .error f, ψ, M => f.isCatchable → Γ.Raised m ψ₀ f ψ M.vars

omit hΓ in
theorem Facts.inHandler (h : Γ.Facts G vars φ) (hφ : φ.Inside) :
    vars.get? G.fields.inHandler = some (.bool φ.handles) := by
  cases φ with
  | body | handling => exact h.1
  | _ => exact hφ.elim

/-- The machine of a guard suspends, and all guards stay as they are. -/
theorem step_suspended (hG : G ∈ Γ.sites) (h : Γ.Resting ψ vars) (halive : Γ.Alive ψ G.id)
    (v : Value) : Γ.Step ψ (.stopped G.selector (.ok (some v))) ψ := by
  have hselector := hΓ.selectorOf_id hG
  refine (h.steady halive).step_machine hΓ hselector.symm (fun G' hG' hid => ?_)
    (fun G' hG' houter => ?_) fun _ _ _ _ => rfl
  · obtain rfl := hΓ.unique G' hG' G hG hid
    exact .inner ((halive.2 G' hG' rfl).inside (h.loose G' hG')) rfl
  · have hown : G.selector = (Γ.guard G').outer := (houter ▸ hselector).symm
    rcases h.loose G' hG' with hinside | houtside
    · exact .through hinside hown
    · exact .elsewhere houtside (not_mine_of_machine hΓ hG' (houter ▸ hselector.symm)) id

/-- The machine of a guard stops, which is for that guard alone. -/
theorem step_stopped (hG : G ∈ Γ.sites) (h : Γ.Steady G.id ψ vars) (hquiet : Γ.Quiet ψ G.id)
    {outcome : Except Value (Option Value)}
    (hstep : (Γ.guard G).Step Γ.tags Γ.kept (ψ G.id) (.stopped G.selector outcome) φ) :
    Γ.Step ψ (.stopped G.selector outcome) (update ψ G.id φ) := by
  have hselector := hΓ.selectorOf_id hG
  refine h.step_machine hΓ hselector.symm (fun G' hG' hid => ?_) (fun G' hG' houter => ?_)
    fun G' _ hid _ => update_of_ne hid ..
  · obtain rfl := hΓ.unique G' hG' G hG hid
    rw [update_self]
    exact hstep
  · rw [hΓ.update_ne hG hG' fun heq => hΓ.outer_ne hG (heq ▸ houter)]
    exact .elsewhere (hquiet G' hG' houter)
      (not_mine_of_machine hΓ hG' (houter ▸ hselector.symm)) id

/-- The machine of a guard ends: resources are next, or the final code is. -/
theorem Guarding.ended (h : Γ.Guarding G ψ₀ φ ψ vars) (hfinished : Γ.Finished G.id ψ ψ' vars') :
    ∃ φ', Γ.Step ψ' (.stopped G.selector (.ok none)) (update ψ' G.id φ') ∧
      Γ.Guarding G ψ₀ φ' (update ψ' G.id φ') vars' ∧
      (φ.handles = true → ∃ jump, φ' = .leaving none jump) ∧
      (φ.handles = false → ∃ held jump,
        φ' = .closing G.fields.resources.reverse held none jump) := by
  have hphase : ψ G.id = φ := h.busy.phase
  have hactive := hfinished.steady.alive.2 G h.mem rfl
  have hside : (ψ' G.id).handles = φ.handles := hfinished.frame.side.trans (hphase ▸ rfl)
  have hstep : ∀ {φ'}, (Γ.guard G).Step Γ.tags Γ.kept (ψ' G.id)
      (.stopped G.selector (.ok none)) φ' → _ :=
    step_stopped hΓ h.mem hfinished.steady hfinished.quiet
  have hleave : ∀ φ', Γ.Facts G vars' φ' → ¬ φ'.Active → _ :=
    fun φ' => h.leave hΓ hfinished.steady hfinished.quiet hfinished.frame
  have hholding : ∀ {held}, Γ.Holding G.fields.resources held vars' →
      Γ.Holding G.fields.resources.reverse held vars' :=
        fun hholding x hx => hholding x (mem_reverse.mp hx)
  have hfacts := hfinished.steady.facts G h.mem
  cases hψ : ψ' G.id with
  | body held =>
    rw [hψ] at hfacts hstep hside
    refine ⟨_, hstep .stop, hleave _ ⟨hfacts.2.1, hholding hfacts.2.2, fun x => mem_reverse.mp⟩ id,
      fun htrue => ?_, fun _ => ⟨held, none, rfl⟩⟩
    cases hside.trans htrue
  | handling =>
    rw [hψ] at hfacts hstep hside
    refine ⟨_, hstep .stopHandler, hleave _ hfacts.2 id, fun _ => ⟨none, rfl⟩, fun hfalse => ?_⟩
    cases hside.trans hfalse
  | parked held tag =>
    rw [hψ] at hfacts hstep hside
    cases held with
    | some held =>
      refine ⟨_, hstep .stopParked, hleave _ ⟨hfacts.2.1, hholding (hfacts.2.2 held rfl),
        fun x => mem_reverse.mp⟩ id,
        fun htrue => ?_, fun _ => ⟨held, some tag, rfl⟩⟩
      cases hside.trans htrue
    | none =>
      refine ⟨_, hstep .stopHandlerParked, hleave _ hfacts.2.1 id, fun _ => ⟨some tag, rfl⟩,
        fun hfalse => ?_⟩
      cases hside.trans hfalse
  | _ =>
    rw [hψ] at hactive
    exact hactive.elim

/-- The machine of a guard fails: resources are next, or the failure has to wait. -/
theorem Guarding.failed {f : Fault} {failure : Value} (h : Γ.Guarding G ψ₀ φ ψ vars)
    (hraised : Γ.Raised G.id ψ f ψ' vars') (hfailure : ∀ u, f = .thrown u → u = failure) :
    ∃ φ' ψ'', Γ.Step ψ' (.stopped G.selector (.error failure)) ψ'' ∧ Γ.Guarding G ψ₀ φ' ψ'' vars' ∧
      (φ.handles = true → φ' = .failed failure) ∧
      (φ.handles = false → ∃ held, φ' = .closing G.fields.resources.reverse held
        (some failure) none) := by
  have hphase : ψ G.id = φ := h.busy.phase
  obtain ⟨ψ₁, hrunning, hψ₁⟩ := hraised
  have hinside := hrunning.isOpen G h.mem rfl
  have hside : (ψ₁ G.id).handles = φ.handles := hrunning.frame.side.trans (hphase ▸ rfl)
  have hstep : ∀ {φ'}, (Γ.guard G).Step Γ.tags Γ.kept (ψ₁ G.id)
      (.stopped G.selector (.error failure)) φ' →
      Γ.Step ψ' (.stopped G.selector (.error failure)) (update ψ₁ G.id φ') := by
    intro φ' hguard
    have hstep := step_stopped hΓ h.mem hrunning.steady hrunning.quiet hguard
    rcases hψ₁ with rfl | ⟨v, G₀, hf, houter, hdeparts⟩
    · exact hstep
    · -- the failure comes out of the final code of a guard in the machine
      obtain rfl := hfailure v hf
      refine hdeparts.step hΓ hstep ?_ ?_
      · rw [update_of_ne (houter ▸ (hΓ.outer_ne hdeparts.mem).symm)]
        exact hdeparts.idle_self
      · have hselector : G.selector = (Γ.guard G₀).outer := (houter ▸ hΓ.selectorOf_id h.mem).symm
        exact hselector ▸ .raise
  have hleave : ∀ φ', Γ.Facts G vars' φ' → ¬ φ'.Active → _ :=
    fun φ' => h.leave hΓ hrunning.steady hrunning.quiet hrunning.frame
  have hfacts := hrunning.steady.facts G h.mem
  cases hψ : ψ₁ G.id with
  | body held =>
    rw [hψ] at hfacts hstep hside
    refine ⟨_, _, hstep .fail, hleave _ ⟨hfacts.2.1, fun x hx => hfacts.2.2 x (mem_reverse.mp hx),
      fun x => mem_reverse.mp⟩ id, fun htrue => ?_, fun _ => ⟨held, rfl⟩⟩
    cases hside.trans htrue
  | handling =>
    rw [hψ] at hfacts hstep hside
    refine ⟨_, _, hstep .failHandler, hleave _ hfacts.2 id, fun _ => rfl, fun hfalse => ?_⟩
    cases hside.trans hfalse
  | _ =>
    rw [hψ] at hinside
    exact hinside.elim

/-- One stay in the machine of a guard. -/
theorem ensures_guardRound (he : e.tags = Γ.tags) {machine : Watched Event (Option Value)}
    (hmachine : ∀ ψ M, Γ.Waiting G.id ψ ψ M.vars → Ensures Γ.Step machine (Γ.Stopped G.id ψ) ψ M)
    (h : Γ.Guarding G ψ₀ φ ψ M.vars) (hφ : φ.Inside) :
    Ensures Γ.Step (Recorder.events.guardRound e G.fields G.selector machine)
      (Γ.Round G ψ₀) ψ M := by
  have hnodup : G.fields.resources.reverse.Nodup :=
    nodup_reverse.mpr ((nodup_flatMap.mp hΓ.resources).1 G h.mem)
  have hhandling : (do (← Run.field G.fields.inHandler).asBool : Run Bool) M = .ok φ.handles M :=
    (bind_of_ok (Run.field_of_get? (h.facts.inHandler hφ)) _).trans rfl
  refine ensures_bind (ensures_own hhandling (ensures_bind (ensures_attempt
    ((hmachine ψ M (h.nested hΓ hφ)).mono fun r ψ' M' hr => ?_))))
  rcases r with f | (_ | v)
  · refine ensures_bind
      (ensures_lift (caught_of f (fun failure w hcatchable hfailure => ?_) id))
    obtain ⟨φ', ψ'', hstep, hguarding, hhandler, hbody⟩ := h.failed hΓ (hr hcatchable) hfailure
    refine ensures_bind (ensures_log hstep ?_)
    cases hside : φ.handles with
    | true =>
      obtain rfl := hhandler hside
      have hwaits : Γ.Waits G M'.vars none none := hguarding.facts
      have hpending := (Guard.steering_ne (hΓ.regular G h.mem).nodup).2.2.symm
      have hphase : ψ'' G.id = _ := hguarding.busy.phase
      refine ensures_bind
        (ensures_log (hguarding.step hΓ rfl .waitHandler) (ensures_bind (ensures_lift
        (ensures_pure ⟨.leaving (some failure) none, some failure, none, ⟨rfl, rfl⟩, ?_⟩))))
      refine hguarding.move hΓ (fun x hslot _ => ?_) ⟨get?_set_self .., ?_, exits_none⟩
        (fun _ => hguarding.steady.dead G h.mem (hphase ▸ id)) False.elim
      · exact get?_set_ne (fun heq : x = _ => hslot (.inl (heq ▸ by simp [Site.steering]))) _
      · exact (get?_set_ne hpending _).trans hwaits.pendingJump
    | false =>
      obtain ⟨held, rfl⟩ := hbody hside
      refine ensures_bind
        ((ensures_closeResources (M := { M' with world := w }) hΓ hguarding hnodup).mono
        fun r ψ M hr => ?_)
      cases r with
      | error => exact hr
      | ok =>
        obtain ⟨hsame, rest, hrest, hclosed⟩ := hr
        exact ensures_enterHandler hΓ he (hsame failure rfl ▸ hclosed) hrest
  · obtain ⟨φ', hstep, hguarding, hhandler, hbody⟩ := h.ended hΓ hr
    refine ensures_bind (ensures_log hstep ?_)
    cases hside : φ.handles with
    | true =>
      obtain ⟨jump, rfl⟩ := hhandler hside
      exact ensures_pure ⟨.leaving none jump, none, jump, ⟨rfl, rfl⟩, hguarding⟩
    | false =>
      obtain ⟨held, jump, rfl⟩ := hbody hside
      refine ensures_bind ((ensures_closeResources hΓ hguarding hnodup).mono fun r ψ M hr => ?_)
      rcases r with f | (_ | failure)
      · exact hr
      · obtain ⟨-, rest, hrest, hclosed⟩ := hr
        exact ensures_pure ⟨.closing rest held none jump, none, jump,
          ⟨hrest, rfl, rfl, rfl⟩, hclosed⟩
      · obtain ⟨-, rest, hrest, hclosed⟩ := hr
        exact ensures_enterHandler hΓ he hclosed hrest
  · obtain ⟨hresting, halive⟩ := hr
    refine ensures_bind (ensures_log (step_suspended hΓ h.mem hresting halive v)
      (ensures_pure ⟨hresting, ?_⟩))
    exact alive_outer hΓ hresting.dead h.mem (halive.2 G h.mem rfl)

/-! ### The state of a guard -/

omit hΓ in
theorem Through.facts (h : Γ.Through failure jump φ) (hfacts : Γ.Facts G vars φ) :
    Γ.Waits G vars failure jump := by
  cases φ with
  | leaving =>
    obtain ⟨rfl, rfl⟩ := h
    exact hfacts
  | closing =>
    obtain ⟨-, rfl, rfl, rfl⟩ := h
    exact hfacts.1
  | _ => exact h.elim

omit hΓ in
theorem Through.step (h : Γ.Through failure jump φ) :
    (Γ.guard G).Step Γ.tags Γ.kept φ (.goto (Γ.selectorOf G.outer) G.finalTag)
    (.arriving failure jump) := by
  cases φ with
  | leaving =>
    obtain ⟨rfl, rfl⟩ := h
    exact .leave
  | closing =>
    obtain ⟨hrest, rfl, rfl, rfl⟩ := h
    exact .closed hrest
  | _ => exact h.elim

omit hΓ in
theorem Through.not_active (h : Γ.Through failure jump φ) : ¬ φ.Active := by
  cases φ <;> first | exact id | exact h.elim

/-- Control goes from a guard to its final code. -/
theorem ensures_final (he : e.tags = Γ.tags) (h : Γ.Guarding G ψ₀ φ ψ M.vars)
    (hφ : Γ.Through failure jump φ) :
    Ensures Γ.Step ((Op.jump G.finalTag).record .events e (Γ.selectorOf G.outer))
      (Γ.Gone G.outer ψ₀) ψ M := by
  have hlies := hΓ.lies G h.mem
  have hphase : ψ G.id = φ := h.busy.phase
  have hmove : Γ.Guarding G ψ₀ (.arriving failure jump)
      (update ψ G.id (.arriving failure jump)) M.vars :=
    h.move hΓ (fun _ _ _ => rfl) (hφ.facts h.facts)
      (fun _ => h.steady.dead G h.mem (hphase ▸ hφ.not_active)) False.elim
  have hgoto : Γ.Step ψ (.goto (Γ.selectorOf G.outer) G.finalTag)
      (update ψ G.id (.arriving failure jump)) := by
    refine h.steady.step_machine hΓ rfl (fun G' hG' hid => ?_)
      (fun G' hG' houter => ?_) fun G' hG' _ houter => ?_
    · rw [update_of_ne (hΓ.outer_ne h.mem)]
      refine .inner (h.isOpen G' hG' hid) ?_
      show Γ.selectorOf G.outer = G'.selector
      rw [← hid, hΓ.selectorOf_id hG']
    · by_cases heq : G' = G
      · rw [heq, hphase, update_self]
        exact hφ.step
      · rw [hΓ.update_ne h.mem hG' heq]
        exact .elsewhere (h.busy.others G' hG' houter heq)
          (not_mine_of_machine hΓ hG' (houter ▸ rfl)) id
    · exact hΓ.update_ne h.mem hG' fun heq => houter (heq ▸ rfl)
  refine ensures_goto (he ▸ hlies.final_target) hgoto
    ⟨hmove.steady.congr hΓ fun x hx _ => get?_set_ne hx _,
    hmove.isOpen, ⟨G.place + 1, .final G.id G.finals, get?_set_self .., hlies.final, G, h.mem,
      rfl, rfl, rfl,
      hmove.busy.imp fun _ heq => heq ▸ trivial⟩, fun G' hG' houter hactive => ?_, hmove.frame⟩
  by_cases heq : G' = G
  · rw [heq, update_self] at hactive
    exact hactive.elim
  · exact absurd (hmove.busy.others G' hG' houter heq) hactive.not_outside

/-- A state that runs a guard. -/
theorem ensures_guarded (he : e.tags = Γ.tags)
    (hmachine : ∀ ψ M, Γ.Waiting G.id ψ ψ M.vars →
      Ensures Γ.Step (G.machine.record .events e) (Γ.Stopped G.id ψ) ψ M)
    (h : Γ.Guarding G ψ₀ φ ψ M.vars) (hφ : φ.Inside) :
    Ensures Γ.Step (recordOps .events e (Γ.selectorOf G.outer) [.guarded G.machine G.fields,
      .jump G.finalTag])
      (Γ.Gone G.outer ψ₀) ψ M := by
  have hwatch : (Op.guarded G.machine G.fields).record .events e (Γ.selectorOf G.outer) =
      repeatUntil e.fuel (Recorder.events.guardRound e G.fields G.selector
        (G.machine.record .events e)) := by
    unfold Site.selector
    cases G.machine
    rfl
  refine ensures_ops_cons ?_
  rw [hwatch]
  refine ensures_repeatUntil (I := fun ψ M => ∃ φ, φ.Inside ∧ Γ.Guarding G ψ₀ φ ψ M.vars)
    (fun ψ M ⟨φ, hφ, h⟩ => (ensures_guardRound hΓ he hmachine h hφ).mono fun r ψ M hr => ?_) e.fuel
    ⟨φ, hφ, h⟩
  match r with
  | .error f =>
    intro hcatchable
    cases hr.symm.trans hcatchable
  | .ok none => exact hr
  | .ok (some .next) =>
    obtain ⟨φ, failure, jump, hthrough, h⟩ := hr
    exact ensures_ops_cons ((ensures_final hΓ he h hthrough).mono fun _ _ _ hr => hr.then id)
  | .ok (some (.suspend v)) => exact hr
  | .ok (some .dispatch) => exact hr.elim
  | .ok (some .done) => exact hr.elim

/-! ## States -/

/-- The machine is at the start of a state with that zone. -/
def Begins (Γ : Plan) (m : MachineId) (ψ₀ : Phases) (place : Nat) (ψ : Phases) (vars : Store) :
    Zone → Prop
  | .code finals => Γ.Running m ψ₀ finals ψ vars ∧
      vars.get? (Γ.selectorOf m) = some (.ofState (place + 1))
  | .final site finals => Γ.Running m ψ₀ (site :: finals) ψ vars
  | .first => Γ.Running m ψ₀ [] ψ vars ∧ ∃ held, ψ m = .body held
  | .guard site _ => ∃ G φ, G.id = site ∧ G.outer = m ∧ φ.Inside ∧ Γ.Guarding G ψ₀ φ ψ vars

/-- What holds after the ops of a state, unless control passes their end. -/
def Past (Γ : Plan) (m : MachineId) (ψ₀ : Phases) : Post Phases Flow
  | .ok .next, _, _ => True
  | r, ψ, M => Γ.Gone m ψ₀ r ψ M

omit hΓ in
theorem After.past {r : Except Fault Flow} (h : Γ.After m ψ₀ finals r ψ M) : Γ.Past m ψ₀ r ψ M := by
  rcases r with f | (_ | _ | v | _)
  · exact h
  · trivial
  · exact h
  · exact h
  · exact h

omit hΓ in
theorem Gone.past {r : Except Fault Flow} (h : Γ.Gone m ψ₀ r ψ M) : Γ.Past m ψ₀ r ψ M :=
  (h.after : Γ.After m ψ₀ [] r ψ M).past

/-- A state that asks an iterator again: the selector stays as it is. -/
theorem ensures_poll (he : e.tags = Γ.tags) {x : Ident} (hstands : Γ.Stands m place (.code finals))
    (hops : Γ.Laid m finals ops) (h : Γ.Running m ψ₀ finals ψ M.vars)
    (hselector : M.vars.get? (Γ.selectorOf m) = some (.ofState (place + 1))) :
    Ensures Γ.Step (recordOps .events e (Γ.selectorOf m)
      (.cond (Part.callOn x "hasNext") [.yield (Part.callOn x "next")] [] :: ops))
        (Γ.After m ψ₀ finals) ψ M := by
  have hfree := not_free_of_steers (hΓ.selectorOf_steers h.steady.alive.1)
  refine ensures_ops_cons (ensures_bind (ensures_touches (P := Γ.Free)
    (Expr.test_touches e.host (Part.callOn x "hasNext") nofun) fun r M₁ hsame => ?_))
  have h₁ := h.congr hΓ fun x _ hx => hsame x hx
  match r with
  | .error f => exact fun _ => h₁.raised f
  | .ok false => exact ensures_pure (hops.ensures hΓ he h₁)
  | .ok true =>
    refine ensures_ops_cons (ensures_bind (ensures_touches (P := Γ.Free)
      ((Part.callOn x "next").eval_touches e.host nofun) fun r M₂ hsame₂ => ?_))
    have h₂ := h₁.congr hΓ fun x _ hx => hsame₂ x hx
    cases r with
    | error f => exact fun _ => h₂.raised f
    | ok =>
      refine ensures_pure ⟨h₂.steady.resting h₂.isOpen ⟨place, .code finals, ?_, hstands,
        h₂.quiet, h₂.finals⟩
        fun G hG houter => .inr (h₂.quiet G hG houter), h₂.steady.alive⟩
      rw [hsame₂ _ hfree, hsame _ hfree]
      exact hselector

/-- A resource of the guard gets a value. -/
theorem Running.hold {x : SymbolId} (hG : G ∈ Γ.sites) (h : Γ.Running G.id ψ₀ [] ψ vars)
    (hheld : ψ G.id = .body held) (hx : x ∈ G.fields.resources) (hkept : Γ.kept x) (v : Value) :
    Γ.Step ψ (.assign x v) (update ψ G.id (.body (update held x v))) ∧
      Γ.Running G.id ψ₀ [] (update ψ G.id (.body (update held x v)))
        (vars.set x v) := by
  have hlies := hΓ.lies G hG
  have hslot : Γ.Slot G x := .inr ⟨hx, hkept⟩
  have hne : ∀ y ∈ G.steering, y ≠ x :=
    fun y hy heq => hlies.resources x hx (heq ▸ hlies.steers y hy)
  have hfacts := h.steady.facts G hG
  rw [hheld] at hfacts
  refine ⟨step_owned hΓ hG hslot (fun G' hG' _ => h.loose G' hG') (hheld ▸ .hold hx hkept), ?_,
    fun G' _ _ => ?_,
    fun G' hG' houter => ?_, nofun, h.frame.update_self (by rw [hheld]; rfl)⟩
  · refine h.steady.own hΓ hG (fun y hy _ => get?_set_ne (fun heq : y = x => hy (heq ▸ hslot)) v)
      ⟨?_, ?_, ?_⟩ trivial
    · exact (get?_set_ne (hne _ (by simp [Site.steering])) v).trans hfacts.1
    · exact hfacts.2.1.congr (get?_set_ne (hne _ (by simp [Site.steering])) v)
        (get?_set_ne (hne _ (by simp [Site.steering])) v)
    · intro y hy hy'
      by_cases heq : y = x
      · rw [heq, update_self, get?_set_self]
      · rw [update_of_ne heq, get?_set_ne heq]
        exact hfacts.2.2 y hy hy'
  · rw [update_self]
    trivial
  · rw [hΓ.update_ne hG hG' fun heq => hΓ.outer_ne hG (heq ▸ houter)]
    exact h.quiet G' hG' houter

/-- The first state of the machine of a guard gives resources their values. -/
theorem ensures_init {rs : List (SymbolId × Option Expr)} (hG : G ∈ Γ.sites)
    (hrs : ∀ r ∈ rs, r.1 ∈ G.fields.resources ∧ ∀ y ∈ writesOf? r.2, Γ.Free y)
    (h : Γ.Running G.id ψ₀ [] ψ M.vars) (hheld : ψ G.id = .body held)
    (hops : ∀ ψ M, Γ.Running G.id ψ₀ [] ψ M.vars →
      Ensures Γ.Step (recordOps .events e (Γ.selectorOf G.id) ops) (Γ.After G.id ψ₀ []) ψ M) :
    Ensures Γ.Step (recordOps .events e (Γ.selectorOf G.id) (initOps rs ++ ops))
      (Γ.After G.id ψ₀ []) ψ M := by
  induction rs generalizing ψ M held with
  | nil => exact hops ψ M h
  | cons r rs ih =>
    obtain ⟨x, init⟩ := r
    have hrest := fun r hr => hrs r (mem_cons_of_mem _ hr)
    obtain ⟨hx, hinit⟩ := hrs (x, init) mem_cons_self
    have hlies := hΓ.lies G hG
    cases init with
    | none => exact ih hrest h hheld
    | some value =>
      show Ensures _ (recordOps .events e _ (.assign x value :: (initOps rs ++ ops))) _ _ _
      refine ensures_ops_cons
        (ensures_bind (h.user hΓ (value.eval_touches e.host hinit) (fun v M' h => ?_)
        fun f M' h _ => h.raised f))
      by_cases hkept : Γ.kept x
      · obtain ⟨hstep, h⟩ := h.hold hΓ hG hheld hx hkept v
        exact ensures_bind (ensures_log hstep (ensures_bind (ensures_lift
          (ensures_pure (ih hrest h (update_self ..))))))
      · have hfree : Γ.Free x := ⟨hlies.resources x hx, hkept⟩
        exact ensures_bind (ensures_log (step_assign hΓ h.loose hfree v)
          (ensures_bind (ensures_lift
          (ensures_pure (ih hrest (h.store hΓ hfree v) hheld)))))

/-- The number of a state is that of no guard in its machine, and not of its final code. -/
theorem not_enters {z : Zone} (hstands : Γ.Stands m place z) (hG : G ∈ Γ.sites)
    (houter : G.outer = m) (hguard : z ≠ .guard G.id G.finals) (hfinal : z ≠ .final G.id G.finals) :
    ¬ (Γ.guard G).Enters (.visit (Γ.selectorOf m) (place + 1)) := by
  have hlies := hΓ.lies G hG
  rintro ⟨-, hnumber | hnumber⟩
  · have hplace : place = G.place := by
      have hnumber : (place : Int) + 1 = ((G.place + 1 : Nat) : Int) := hnumber
      omega
    subst hplace
    exact hguard (hΓ.stands_unique hstands (houter ▸ hlies.guard))
  · have hplace : place = G.place + 1 := by
      have hnumber : (place : Int) + 1 = ((G.place + 1 : Nat) : Int) + 1 := hnumber
      omega
    subst hplace
    exact hfinal (hΓ.stands_unique hstands (houter ▸ hlies.final))

/-- A state starts to run. -/
theorem Waiting.visit (h : Γ.Waiting m ψ₀ ψ vars) : ∃ place z ψ',
    vars.get? (Γ.selectorOf m) = some (.ofState (place + 1)) ∧ Γ.Stands m place z ∧
    Γ.Step ψ (.visit (Γ.selectorOf m) (place + 1)) ψ' ∧ Γ.Begins m ψ₀ place ψ' vars z := by
  obtain ⟨place, z, hselector, hstands, hat⟩ := h.rest
  have hown : ∀ G ∈ Γ.sites, G.id = m →
      (Γ.guard G).Step Γ.tags Γ.kept (ψ m) (.visit (Γ.selectorOf m) (place + 1)) (ψ m) :=
        fun G hG hid => by
    refine .inner (h.isOpen G hG hid) ?_
    show Γ.selectorOf m = G.selector
    rw [← hid, hΓ.selectorOf_id hG]
  have helsewhere : ∀ G ∈ Γ.sites, G.outer = m → (ψ G.id).Outside → z ≠ .guard G.id G.finals →
      z ≠ .final G.id G.finals →
      (Γ.guard G).Step Γ.tags Γ.kept (ψ G.id) (.visit (Γ.selectorOf m) (place + 1)) (ψ G.id) :=
    fun G hG houter houtside hguard hfinal =>
      .elsewhere houtside (not_mine_of_machine hΓ hG (houter ▸ rfl))
      (not_enters hΓ hstands hG houter hguard hfinal)
  have hquiet : Γ.Quiet ψ m → (∀ site finals, z ≠ .guard site finals) →
      (∀ site finals, z ≠ .final site finals) →
      Γ.Step ψ (.visit (Γ.selectorOf m) (place + 1)) ψ := fun hquiet hguard hfinal =>
    h.steady.step_machine hΓ rfl hown
      (fun G hG houter => helsewhere G hG houter (hquiet G hG houter) (hguard _ _)
      (hfinal _ _)) fun _ _ _ _ => rfl
  refine ⟨place, z, ?_⟩
  cases z with
  | code =>
    exact ⟨ψ, hselector, hstands,
      hquiet hat.1 nofun nofun, ⟨h.steady, h.isOpen, hat.1, hat.2, h.frame⟩, hselector⟩
  | first =>
    exact ⟨ψ, hselector, hstands,
      hquiet hat.1 nofun nofun, ⟨h.steady, h.isOpen, hat.1, nofun, h.frame⟩, hat.2⟩
  | guard =>
    obtain ⟨G, hG, rfl, rfl, rfl, hbusy⟩ := hat
    have hinside := h.calm G hG rfl hbusy.phase
    refine ⟨ψ, hselector, hstands, ?_, G, ψ G.id, rfl, rfl, hinside, hG, h.steady, h.isOpen,
      ⟨rfl, hbusy.others, hbusy.finals⟩, h.frame, hselector⟩
    refine h.steady.step_machine hΓ rfl hown (fun G' hG' houter => ?_) fun _ _ _ _ => rfl
    by_cases heq : G' = G
    · subst heq
      exact .through hinside ⟨rfl, rfl⟩
    · refine helsewhere G' hG' houter (hbusy.others G' hG' houter heq) (fun hz => ?_) nofun
      exact hΓ.id_ne hG hG' heq (Zone.guard.inj hz).1.symm
  | final =>
    obtain ⟨G, hG, rfl, rfl, rfl, hbusy⟩ := hat
    have hlies := hΓ.lies G hG
    obtain ⟨-, rfl⟩ := Zone.final.inj (hΓ.stands_unique hstands hlies.final)
    cases hφ : ψ G.id with
    | arriving failure jump =>
      have hfacts := h.steady.facts G hG
      rw [hφ] at hfacts
      refine ⟨update ψ G.id (.final failure jump), hselector, hstands, ?_, ?_, ?_, ?_, ?_,
        h.frame.update hlies.outer_lt _⟩
      · refine h.steady.step_machine hΓ rfl (fun G' hG' hid => ?_)
          (fun G' hG' houter => ?_) fun G' hG' _ houter => ?_
        · rw [update_of_ne (hΓ.outer_ne hG)]
          exact hown G' hG' hid
        · by_cases heq : G' = G
          · subst heq
            rw [hφ, update_self]
            exact .arrive
          · rw [hΓ.update_ne hG hG' heq]
            refine helsewhere G' hG' houter (hbusy.others G' hG' houter heq) nofun fun hz => ?_
            exact hΓ.id_ne hG hG' heq (Zone.final.inj hz).1.symm
        · exact hΓ.update_ne hG hG' fun heq => houter (heq ▸ rfl)
      · exact h.steady.move hΓ hG rfl (fun _ _ _ _ => rfl) hfacts
          (fun _ => h.steady.dead G hG (hφ ▸ id)) False.elim
      · intro G' hG' hid
        rw [update_of_ne (hΓ.outer_ne hG)]
        exact h.isOpen G' hG' hid
      · intro G' hG' houter
        by_cases heq : G' = G
        · rw [heq, update_self]
          trivial
        · rw [hΓ.update_ne hG hG' heq]
          exact hbusy.others G' hG' houter heq
      · intro g hg
        rcases mem_cons.mp hg with rfl | hg
        · exact ⟨G, hG, rfl, rfl, by rw [update_self]; trivial⟩
        · obtain ⟨G', hG', rfl, houter, hfinal⟩ := hbusy.finals g hg
          refine ⟨G', hG', rfl, houter, ?_⟩
          rw [hΓ.update_ne hG hG' fun heq => hΓ.not_mem_finals hG (heq ▸ hg)]
          exact hfinal
    | _ =>
      have harriving := hbusy.phase
      rw [hφ] at harriving
      exact harriving.elim

/-! ## Machines -/

omit hΓ in
/-- Control does not pass the end of ops that end with a terminal one. -/
theorem ensures_gone {selector : SymbolId} (hops : endsTerminal ops)
    (h : Ensures Γ.Step (recordOps .events e selector ops) (Γ.Past m ψ₀) ψ M) :
    Ensures Γ.Step (recordOps .events e selector ops) (Γ.Gone m ψ₀) ψ M := by
  obtain ⟨ψ', hfollows, hpost⟩ := h
  refine ⟨ψ', hfollows, ?_⟩
  have herase : (recordOps .events e selector ops M).2 = execOps e selector ops M :=
    congrFun (erase_recordOps .events e selector ops) M
  rcases hr : (recordOps .events e selector ops M).2 with ⟨flow, M'⟩ | ⟨f | _, M'⟩
  · rw [hr] at hpost
    cases flow with
    | next =>
      exact absurd rfl ((execOps_returns e selector ops M .next M' (herase.symm.trans hr)).2 hops)
    | _ => exact hpost
  · rw [hr] at hpost
    exact hpost
  · trivial

omit hΓ in
theorem recordState_eq {selector : SymbolId} {states : List MachineState} {state : MachineState}
    (h : states[place]? = some state) :
    recordState .events e selector states place = some
      (recordOps .events e selector state.ops) := by
  induction states generalizing place with
  | nil => cases h
  | cons s states ih =>
    cases place with
    | zero =>
      cases h
      obtain ⟨id, ops⟩ := state
      rfl
    | succ =>
      obtain ⟨id, ops⟩ := s
      exact ih h

/-- The state keeps the invariant. -/
def Safe (Γ : Plan) (e : Engine) (m : MachineId) (z : Zone) (ops : List Op) : Prop :=
  ∀ place ψ₀ ψ M, Γ.Stands m place z → Γ.Begins m ψ₀ place ψ M.vars z →
    Ensures Γ.Step (recordOps .events e (Γ.selectorOf m) ops) (Γ.Past m ψ₀) ψ M

/-- A machine whose states keep the invariant does so as a whole. -/
theorem ensures_machine {zones : List Zone} {machine : Machine}
    (hselector : machine.selector = Γ.selectorOf m)
    (hzones : ∀ place z, Γ.Stands m place z → zones[place]? = some z)
    (hlength : zones.length = machine.states.length)
    (hended : ∀ s ∈ machine.states, endsTerminal s.ops)
    (hstates : ∀ (place : Nat) z state, zones[place]? = some z →
      machine.states[place]? = some state →
      Γ.Safe e m z state.ops)
    (h : Γ.Waiting m ψ₀ ψ M.vars) : Ensures Γ.Step (machine.record .events e)
    (Γ.Stopped m ψ₀) ψ M := by
  obtain ⟨id, selector, states⟩ := machine
  obtain rfl : selector = Γ.selectorOf m := hselector
  refine ensures_loop (I := fun b ψ M => b = none ∧ Γ.Waiting m ψ₀ ψ M.vars)
    (fun b ψ M hI => ?_) e.fuel none ⟨rfl, h⟩
  obtain ⟨rfl, h⟩ := hI
  obtain ⟨place, z, ψ', hnumber, hstands, hstep, hbegins⟩ := h.visit hΓ
  have hzone := hzones place z hstands
  obtain ⟨state, hstate⟩ : ∃ state, states[place]? = some state :=
    ⟨_, getElem?_eq_getElem (hlength ▸ (List.getElem?_eq_some_iff.mp hzone).1)⟩
  have hlt := hΓ.places_lt m place z hstands
  have htoInt : (Int64.ofNat (place + 1)).toInt = Int.ofNat (place + 1) :=
    Int64.toInt_ofNat_of_lt hlt
  have hne : Int64.ofNat (place + 1) ≠ 0 := fun heq => by
    rw [heq] at htoInt
    cases htoInt
  have hfield : (do (← Run.field (Γ.selectorOf m)).asInt : Run Int64) M = .ok
      (Int64.ofNat (place + 1)) M :=
    (bind_of_ok (Run.field_of_get? hnumber) _).trans rfl
  have hbody : Recorder.stateOf? (fun n => recordState .events e (Γ.selectorOf m) states n)
      (Int.ofNat (place + 1)) =
      some (recordOps .events e (Γ.selectorOf m) state.ops) := recordState_eq hstate
  refine ensures_bind (ensures_own hfield ?_)
  show Ensures _ (if Int64.ofNat (place + 1) = 0 then _
      else Recorder.events.enterState _ _ (Int64.ofNat (place + 1)).toInt) _ _ _
  rw [if_neg hne, htoInt, Recorder.enterState, hbody]
  have hrun := ensures_gone (hended state (mem_of_getElem? hstate))
    (hstates place z state hzone hstate place ψ₀ ψ' M hstands hbegins)
  refine ensures_bind (ensures_log hstep (ensures_bind (hrun.mono fun r ψ M hr => ?_)))
  rcases r with f | (_ | _ | v | _)
  · exact hr
  · exact hr.elim
  · exact ensures_pure ⟨rfl, hr⟩
  · exact ensures_pure hr
  · exact ensures_pure hr

/-- **States that are laid out keep the invariant.** -/
theorem LaidAt.safe (he : e.tags = Γ.tags) {z : Zone} (h : Γ.LaidAt m z ops) :
    Γ.Safe e m z ops := by
  induction h with
  | code hops =>
    intro place ψ₀ ψ M _ hbegins
    exact (hops.ensures hΓ he hbegins.1).mono fun _ _ _ => After.past
  | poll hops =>
    intro place ψ₀ ψ M hstands hbegins
    exact (ensures_poll hΓ he hstands hops hbegins.1 hbegins.2).mono fun _ _ _ => After.past
  | final _ hops =>
    intro place ψ₀ ψ M _ hbegins
    exact (hops.ensures hΓ he hbegins).mono fun _ _ _ => After.past
  | first hG hrs hops =>
    intro place ψ₀ ψ M _ hbegins
    obtain ⟨hrunning, held, hheld⟩ := hbegins
    exact (ensures_init hΓ hG hrs hrunning hheld fun ψ M => hops.ensures hΓ he).mono fun _ _ _ =>
      After.past
  | @guard G hG hlength _ ih =>
    intro place ψ₀ ψ M _ hbegins
    obtain ⟨G', φ, hid, -, hinside, hguarding⟩ := hbegins
    obtain rfl := hΓ.unique G' hguarding.mem G hG hid
    have hzones : ∀ place z, Γ.Stands G'.id place z → G'.zones[place]? = some z := by
      rintro place z (⟨hroot, -⟩ | ⟨G'', hG'', hid, hz⟩)
      · exact absurd hroot (hΓ.not_root G' hG)
      · obtain rfl := hΓ.unique G'' hG'' G' hG hid
        exact hz
    refine (ensures_guarded hΓ he (fun ψ M hwaiting => ?_) hguarding hinside).mono fun _ _ _ =>
      Gone.past
    exact ensures_machine hΓ (hΓ.selectorOf_id hG).symm hzones hlength (hΓ.ended G' hG) ih hwaiting

end Plan

end Lowering

end Resumable
