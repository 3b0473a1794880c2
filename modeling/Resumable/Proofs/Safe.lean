import Resumable.Proofs.Ensures
import Resumable.Proofs.Steady

/-!
# Laid out code is safe

Ops that are laid out keep the invariant, and all that they do fits into the protocols of the
guards.

* `Plan.Running` is the invariant in the middle of a state, `Plan.After` what holds after ops;
* a guard is entered by its reset, and left at the end of its final code by one of the routes there;
* `Plan.Laid.ensures`: laid out ops keep the invariant.
-/

namespace Resumable

open List

/-- Handlers of the guard are in charge, and no longer its body. -/
def Phase.handles : Phase → Bool
  | handling => true
  | parked held _ => held.isNone
  | _ => false

namespace Lowering

/-- What a machine leaves alone while it runs: the phases of all guards around it, but for its own
one, which stays on its side. -/
structure Phases.Frame (m : MachineId) (ψ₀ ψ : Phases) : Prop where
  below : ∀ m', m'.number < m.number → ψ m' = ψ₀ m'
  side : (ψ m).handles = (ψ₀ m).handles

namespace Phases.Frame

variable {m m' : MachineId} {ψ₀ ψ ψ' : Phases} {φ : Phase}

theorem refl (ψ : Phases) : Phases.Frame m ψ ψ := ⟨fun _ _ => rfl, rfl⟩

/-- What happens in a machine that is nested in another is of no concern to that one. -/
theorem trans (h : Phases.Frame m ψ₀ ψ) (hlt : m.number < m'.number) (h' : Phases.Frame m' ψ ψ') :
    Phases.Frame m ψ₀ ψ' := by
  refine ⟨fun n hn => ?_, ?_⟩
  · rw [h'.below n (Nat.lt_trans hn hlt), h.below n hn]
  · rw [h'.below m hlt, h.side]

theorem update (h : Phases.Frame m ψ₀ ψ) (hlt : m.number < m'.number) (φ : Phase) :
    Phases.Frame m ψ₀ (Function.update ψ m' φ) := by
  have hne : ∀ n : MachineId, n.number < m'.number → n ≠ m' := fun n hn heq =>
    Nat.lt_irrefl _ (heq ▸ hn)
  refine ⟨fun n hn => ?_, ?_⟩
  · rw [Function.update_of_ne (hne n (Nat.lt_trans hn hlt)), h.below n hn]
  · rw [Function.update_of_ne (hne m hlt), h.side]

theorem update_self (h : Phases.Frame m ψ₀ ψ) (hφ : φ.handles = (ψ m).handles) :
    Phases.Frame m ψ₀ (Function.update ψ m φ) := by
  refine ⟨fun n hn => ?_, ?_⟩
  · rw [Function.update_of_ne (fun heq => Nat.lt_irrefl _ (heq ▸ hn)), h.below n hn]
  · rw [Function.update_self, hφ, h.side]

end Phases.Frame

open Function (update update_eq_self update_idem update_of_ne update_self)

namespace Plan

open Watched

variable {r : Except Fault Flow} {value : Expr} {ops : List Op} {jump : Option Tag} {φ : Phase}
  {Q : Post Phases Flow} {field x : SymbolId} {tag : Tag}

/-! ## Assertions -/

/-- The machine is in code that lies in the final code of certain guards and in no other guard. It
was started when phases were `ψ₀`. -/
structure Running (Γ : Plan) (m : MachineId) (ψ₀ : Phases) (finals : List MachineId) (ψ : Phases)
    (vars : Store) :
    Prop where
  steady : Γ.Steady m ψ vars
  isOpen : Γ.Open ψ m
  quiet : Γ.Quiet ψ m
  finals : Γ.InFinals ψ m finals
  frame : ψ₀.Frame m ψ

/-- The machine goes on at the state that its selector holds. -/
structure Waiting (Γ : Plan) (m : MachineId) (ψ₀ ψ : Phases) (vars : Store) : Prop where
  steady : Γ.Steady m ψ vars
  isOpen : Γ.Open ψ m
  rest : Γ.Rest ψ vars m
  calm : ∀ G ∈ Γ.sites, G.outer = m → (ψ G.id).Active → (ψ G.id).Inside
  frame : ψ₀.Frame m ψ

/-- The machine has ended. -/
structure Finished (Γ : Plan) (m : MachineId) (ψ₀ ψ : Phases) (vars : Store) : Prop where
  steady : Γ.Steady m ψ vars
  quiet : Γ.Quiet ψ m
  frame : ψ₀.Frame m ψ

/-- A guard has done all its work, and is about to be idle. -/
structure Departs (Γ : Plan) (G : Site) (φ : Phase) (ψ ψ' : Phases) : Prop where
  mem : G ∈ Γ.sites
  phase : ψ G.id = φ
  idle : ψ' = update ψ G.id .idle

/-- The machine stops with a fault, which may be what a guard in it passes on. -/
def Raised (Γ : Plan) (m : MachineId) (ψ₀ : Phases) (f : Fault) (ψ : Phases)
    (vars : Store) : Prop :=
  ∃ ψ', Γ.Running m ψ₀ [] ψ' vars ∧
    (ψ' = ψ ∨ ∃ v G, f = .thrown v ∧ G.outer = m ∧ Γ.Departs G (.raising v) ψ ψ')

/-- What holds after ops of a machine that do not go on with what follows them. Nothing is said of
faults that no handler may see. -/
def Gone (Γ : Plan) (m : MachineId) (ψ₀ : Phases) : Post Phases Flow
  | .ok .next, _, _ => False
  | .ok .dispatch, ψ, M => Γ.Waiting m ψ₀ ψ M.vars
  | .ok (.suspend _), ψ, M => Γ.Resting ψ M.vars ∧ Γ.Alive ψ m
  | .ok .done, ψ, M => Γ.Finished m ψ₀ ψ M.vars
  | .error f, ψ, M => f.isCatchable → Γ.Raised m ψ₀ f ψ M.vars

/-- What holds after ops of a machine. -/
def After (Γ : Plan) (m : MachineId) (ψ₀ : Phases) (finals : List MachineId) : Post Phases Flow
  | .ok .next, ψ, M => Γ.Running m ψ₀ finals ψ M.vars
  | r, ψ, M => Γ.Gone m ψ₀ r ψ M

variable {Γ : Plan} (hΓ : Γ.Sound) {m : MachineId} {finals finals' : List MachineId}
  {ψ₀ ψ ψ' : Phases}
  {vars vars' : Store} {M : Memory} {e : Engine} {ev : Event} {G : Site}

theorem Gone.after (h : Γ.Gone m ψ₀ r ψ M) : Γ.After m ψ₀ finals r ψ M := by
  rcases r with f | (_ | _ | v | _)
  · exact h
  · exact h.elim
  · exact h
  · exact h
  · exact h

/-- Ops that follow are not reached. -/
theorem Gone.then (h : Γ.Gone m ψ₀ r ψ M) (hQ : Γ.Gone m ψ₀ r ψ M → Q r ψ M) :
    Q.then Γ.Step e (Γ.selectorOf m) ops r ψ M := by
  rcases r with f | (_ | _ | v | _)
  · exact hQ h
  · exact h.elim
  · exact hQ h
  · exact hQ h
  · exact hQ h

/-- Ops that follow go on with the invariant. -/
theorem After.then (hops : ∀ ψ M, Γ.Running m ψ₀ finals ψ M.vars →
      Ensures Γ.Step (recordOps .events e (Γ.selectorOf m) ops) (Γ.After m ψ₀ finals) ψ M) (h :
        Γ.After m ψ₀ finals r ψ M) :
    (Γ.After m ψ₀ finals).then Γ.Step e (Γ.selectorOf m) ops r ψ M := by
  rcases r with f | (_ | _ | v | _)
  · exact h
  · exact hops ψ M h
  · exact h
  · exact h
  · exact h

theorem InFinals.suffix (h : Γ.InFinals ψ m finals) (hsuffix : finals' <:+ finals) :
    Γ.InFinals ψ m finals' :=
  fun g hg => h g (hsuffix.subset hg)

theorem Running.suffix (h : Γ.Running m ψ₀ finals ψ vars) (hsuffix : finals' <:+ finals) :
    Γ.Running m ψ₀ finals' ψ vars :=
  ⟨h.steady, h.isOpen, h.quiet, h.finals.suffix hsuffix, h.frame⟩

theorem Running.raised (h : Γ.Running m ψ₀ finals ψ vars) (f : Fault) : Γ.Raised m ψ₀ f ψ vars :=
  ⟨ψ, h.suffix nil_suffix, .inl rfl⟩

theorem Running.loose (h : Γ.Running m ψ₀ finals ψ vars) : ∀ G ∈ Γ.sites, (ψ G.id).Loose :=
  h.steady.all_loose h.isOpen fun G hG houter => .inr (h.quiet G hG houter)

include hΓ

theorem Running.congr (h : Γ.Running m ψ₀ finals ψ vars)
    (hsame : ∀ x, x ≠ Γ.selectorOf m → ¬ Γ.Free x → vars'.get? x = vars.get? x) :
    Γ.Running m ψ₀ finals ψ vars' :=
  ⟨h.steady.congr hΓ hsame, h.isOpen, h.quiet, h.finals, h.frame⟩

/-- The running machine does something that is of no concern to the guards in it. -/
theorem Running.step (h : Γ.Running m ψ₀ finals ψ vars) (hev : ev.Of (Γ.selectorOf m))
    (hinner : ∀ g : Guard, g.own = Γ.selectorOf m → g.Inner ev)
    (henters : ∀ G ∈ Γ.sites, G.outer = m → ¬ (Γ.guard G).Enters ev) : Γ.Step ψ ev ψ := by
  refine h.steady.step_machine hΓ hev (fun G hG hid => ?_)
    (fun G hG houter => ?_) fun _ _ _ _ => rfl
  · refine .inner (h.isOpen G hG hid) (hinner _ ?_)
    rw [← hid, hΓ.selectorOf_id hG]
    rfl
  · exact .elsewhere (h.quiet G hG houter) (not_mine_of_machine hΓ hG (houter ▸ hev))
      (henters G hG houter)

/-- Code of the source runs. -/
theorem Running.user {α : Type} {c : Run α} {Q : Post Phases α} (h : Γ.Running m ψ₀ finals ψ M.vars)
    (hc : c.Touches Γ.Free) (hQ : ∀ a M', Γ.Running m ψ₀ finals ψ M'.vars → Q (.ok a) ψ M')
    (hfault : ∀ f M', Γ.Running m ψ₀ finals ψ M'.vars → Q (.error f) ψ M') :
    Ensures Γ.Step (liftM c : Watched Event α) Q ψ M := by
  refine ensures_touches hc fun r M' hsame => ?_
  have h' := h.congr hΓ fun x _ hx => hsame x hx
  cases r with
  | ok a => exact hQ a M' h'
  | error f => exact hfault f M' h'

/-! ## Variables -/

omit hΓ in
theorem get?_set_self (x : SymbolId) (v : Value) : (vars.set x v).get? x = some v := by simp

omit hΓ in
theorem get?_set_ne {y : SymbolId} (h : y ≠ x) (v : Value) :
    (vars.set x v).get? y = vars.get? y := by
  rw [Store.get?_set, if_neg h]

theorem Running.select (h : Γ.Running m ψ₀ finals ψ vars) (v : Value) :
    Γ.Running m ψ₀ finals ψ (vars.set (Γ.selectorOf m) v) :=
  h.congr hΓ fun _ hx _ => get?_set_ne hx v

theorem Running.store (h : Γ.Running m ψ₀ finals ψ vars) (hx : Γ.Free x) (v : Value) :
    Γ.Running m ψ₀ finals ψ (vars.set x v) :=
  h.congr hΓ fun y _ hy => get?_set_ne (fun heq : y = x => hy (heq ▸ hx)) v

theorem Running.waiting {place : Nat} (h : Γ.Running m ψ₀ finals ψ vars)
    (hstands : Γ.Stands m place (.code finals)) :
    Γ.Waiting m ψ₀ ψ (vars.set (Γ.selectorOf m) (.ofState (place + 1))) := by
  have h' := h.select hΓ (.ofState (place + 1))
  exact ⟨h'.steady, h'.isOpen, ⟨place, .code finals, get?_set_self .., hstands, h.quiet, h.finals⟩,
    fun G hG houter hactive => absurd (h.quiet G hG houter) hactive.not_outside, h.frame⟩

theorem Running.finished (h : Γ.Running m ψ₀ finals ψ vars) :
    Γ.Finished m ψ₀ ψ (vars.set (Γ.selectorOf m) (.ofState 0)) := by
  have h' := h.select hΓ (.ofState 0)
  exact ⟨h'.steady, h'.quiet, h.frame⟩

/-! ## Ops -/

/-- A jump within the machine. -/
theorem ensures_jump (he : e.tags = Γ.tags) (h : Γ.Running m ψ₀ finals ψ M.vars)
    (htag : Γ.Leads m finals tag) :
    Ensures Γ.Step ((Op.jump tag).record .events e (Γ.selectorOf m)) (Γ.Gone m ψ₀) ψ M := by
  obtain ⟨place, finals', htarget, -, hstands, hsuffix⟩ := htag
  have hstep : Γ.Step ψ (.goto (Γ.selectorOf m) tag) ψ :=
    h.step hΓ rfl (fun g hg => hg.symm) fun _ _ _ => id
  exact ensures_goto (he ▸ htarget) hstep ((h.suffix hsuffix).waiting hΓ hstands)

theorem ensures_finish (h : Γ.Running m ψ₀ finals ψ M.vars) :
    Ensures Γ.Step (Op.finish.record .events e (Γ.selectorOf m)) (Γ.Gone m ψ₀) ψ M := by
  have hstep : Γ.Step ψ (.finish (Γ.selectorOf m)) ψ :=
    h.step hΓ rfl (fun g hg => hg.symm) fun _ _ _ => id
  exact ensures_end hstep (h.finished hΓ)

theorem ensures_clear (h : Γ.Running m ψ₀ finals ψ M.vars) (hx : Γ.Free x) :
    Ensures Γ.Step ((Op.clear x).record .events e (Γ.selectorOf m)) (Γ.After m ψ₀ finals) ψ M := by
  have h' := h.store hΓ hx .null
  exact ensures_bind (ensures_log (step_clear hΓ h.loose hx)
    (ensures_bind (ensures_lift (ensures_pure h'))))

theorem ensures_assign (h : Γ.Running m ψ₀ finals ψ M.vars) (hx : Γ.Free x)
    (hvalue : ∀ y ∈ value.writes, Γ.Free y) :
    Ensures Γ.Step ((Op.assign x value).record .events e (Γ.selectorOf m))
      (Γ.After m ψ₀ finals) ψ M := by
  refine ensures_bind (h.user hΓ (value.eval_touches e.host hvalue) (fun v M' h => ?_)
    fun f M' h _ => h.raised f)
  have h' := h.store hΓ hx v
  exact ensures_bind (ensures_log (step_assign hΓ h.loose hx v)
    (ensures_bind (ensures_lift (ensures_pure h'))))

theorem ensures_plain {s : Stmt} (h : Γ.Running m ψ₀ finals ψ M.vars)
    (hs : ∀ y ∈ s.writes, Γ.Free y) :
    Ensures Γ.Step ((Op.plain s).record .events e (Γ.selectorOf m)) (Γ.After m ψ₀ finals) ψ M := by
  rw [Op.record_plain]
  refine ensures_bind (h.user hΓ (s.exec_touches e.host e.fuel none hs) (fun c M' h => ?_)
    fun f M' h _ => h.raised f)
  cases c with
  | normal => exact ensures_lift h
  | jump => exact ensures_lift fun _ => h.raised _

/-- A suspension: the selector is set first. -/
theorem ensures_emit (he : e.tags = Γ.tags) (h : Γ.Running m ψ₀ finals ψ M.vars)
    (htag : Γ.Resumes m finals tag) (hvalue : ∀ y ∈ value.writes, Γ.Free y) :
    Ensures Γ.Step (recordOps .events e (Γ.selectorOf m) (.setState tag :: .yield value :: ops))
      (Γ.Gone m ψ₀) ψ M := by
  obtain ⟨place, htarget, -, hstands⟩ := htag
  have hstep : Γ.Step ψ (.resumeAt (Γ.selectorOf m) tag) ψ :=
    h.step hΓ rfl (fun g hg => hg.symm) fun _ _ _ => id
  have h' := h.select hΓ (.ofState (place + 1))
  refine ensures_ops_cons (ensures_bind (ensures_log hstep (ensures_bind (ensures_own
    (setState_eq (he ▸ htarget) M) (ensures_pure (ensures_ops_cons ?_))))))
  refine ensures_bind (ensures_touches (value.eval_touches e.host hvalue) fun r M' hsame => ?_)
  have h'' := h'.congr hΓ fun x _ hx => hsame x hx
  cases r with
  | error f => exact fun _ => h''.raised f
  | ok =>
    have hselector := (hsame _ (not_free_of_steers (hΓ.selectorOf_steers h.steady.alive.1))).trans
        (get?_set_self ..)
    refine ensures_pure ⟨h''.steady.resting h''.isOpen ?_ fun G hG houter => .inr
      (h.quiet G hG houter),
      h.steady.alive⟩
    exact ⟨place, .code finals, hselector, hstands, h.quiet, h.finals⟩

/-! ## Transfers -/

theorem Departs.other (h : Γ.Departs G φ ψ ψ') (hG' : G' ∈ Γ.sites) (hne : G' ≠ G) :
    ψ' G'.id = ψ G'.id := by
  rw [h.idle, hΓ.update_ne h.mem hG' hne]

/-- A guard that has done all its work takes its last step together with the others. -/
theorem Departs.step {ψ'' : Phases} (h : Γ.Departs G φ ψ ψ') (hstep : Γ.Step ψ' ev ψ'')
    (hidle : ψ'' G.id = .idle) (hlast : (Γ.guard G).Step Γ.tags Γ.kept φ ev .idle) :
    Γ.Step ψ ev ψ'' := by
  refine ⟨hstep.not_broke, hstep.not_passed, fun G' hG' => ?_⟩
  by_cases heq : G' = G
  · rw [heq, h.phase, hidle]
    exact hlast
  · exact h.other hΓ hG' heq ▸ hstep.guards G' hG'

omit hΓ in
theorem Departs.idle_self (h : Γ.Departs G φ ψ ψ') : ψ' G.id = .idle := by
  rw [h.idle, update_self]

/-- Control is on its way: out of the final code of a guard with that tag, or just so. The invariant
holds of `ψ'`. -/
def Leaving (Γ : Plan) (m : MachineId) (jump : Option Tag) (ψ ψ' : Phases) : Prop :=
  ψ' = ψ ∨ ∃ G, G.outer = m ∧ Γ.Departs G (.released jump) ψ ψ'

theorem Leaving.step_clear (hψ : Γ.Leaving m jump ψ ψ') (h : Γ.Running m ψ₀ finals ψ' vars)
    (hx : Γ.Free x) : Γ.Step ψ (.clear x) ψ := by
  rcases hψ with rfl | ⟨G, -, hdeparts⟩
  · exact Plan.step_clear hΓ h.loose hx
  · refine ⟨nofun, nofun, fun G' hG' => ?_⟩
    by_cases heq : G' = G
    · rw [heq, hdeparts.phase]
      exact .drop (not_slot_of_free hΓ hdeparts.mem hx)
    · exact Guard.Foreign.step ⟨not_slot_of_free hΓ hG' hx, id, id⟩
        (hdeparts.other hΓ hG' heq ▸ h.loose G' hG')

/-- Scopes that are left drop their variables. -/
theorem ensures_clears {xs : List SymbolId} (hxs : ∀ x ∈ xs, Γ.Free x) (hψ : Γ.Leaving m jump ψ ψ')
    (h : Γ.Running m ψ₀ finals ψ' M.vars)
    (hops : ∀ M, Γ.Running m ψ₀ finals ψ' M.vars →
      Ensures Γ.Step (recordOps .events e (Γ.selectorOf m) ops) Q ψ M) :
    Ensures Γ.Step (recordOps .events e (Γ.selectorOf m) (xs.map Op.clear ++ ops)) Q ψ M := by
  induction xs generalizing M with
  | nil => exact hops M h
  | cons x xs ih =>
    have hx := hxs x mem_cons_self
    refine ensures_ops_cons (ensures_bind (ensures_log (hψ.step_clear hΓ h hx)
      (ensures_bind (ensures_lift (ensures_pure ?_)))))
    exact ih (fun y hy => hxs y (mem_cons_of_mem _ hy)) (h.store hΓ hx .null)

/-- The machine of a guard leaves a tag for the machine around it. -/
theorem Running.park (h : Γ.Running m ψ₀ finals ψ vars) (hG : G ∈ Γ.sites) (hm : G.id = m)
    (htag : tag ∈ G.exits) (hknown : tag.index < Γ.tags.size) :
    ∃ held, Γ.Step ψ (.assign G.fields.pendingJump tag.value)
      (update ψ m (.parked held tag)) ∧
      Γ.Steady m (update ψ m (.parked held tag))
        (vars.set G.fields.pendingJump tag.value) ∧
      ψ₀.Frame m (update ψ m (.parked held tag)) := by
  subst hm
  have hregular := hΓ.regular G hG
  have hslot : G.fields.pendingJump ∈ G.steering := by simp [Site.steering]
  have hsame : ∀ x, ¬ Γ.Slot G x → ¬ Γ.Free x →
      (vars.set G.fields.pendingJump tag.value).get? x = vars.get? x :=
    fun x hx _ => get?_set_ne (fun heq : x = _ => hx (heq ▸ .inl hslot)) _
  have hpending : G.fields.pending ≠ G.fields.pendingJump := by
    rw [hregular.pending, hregular.pendingJump]
    simp
  have hinHandler : G.fields.inHandler ≠ G.fields.pendingJump := by
    rw [hregular.inHandler, hregular.pendingJump]
    simp
  have hresource : ∀ x ∈ G.fields.resources, x ≠ G.fields.pendingJump := fun x hx heq =>
    (hΓ.lies G hG).resources x hx (heq ▸ (hΓ.lies G hG).steers _ hslot)
  have hwaits : Γ.Waits G vars none none →
      Γ.Waits G (vars.set G.fields.pendingJump tag.value) none (some tag) := fun hwaits =>
    ⟨(get?_set_ne hpending _).trans hwaits.pending, get?_set_self ..,
      fun t ht => by cases ht; exact ⟨htag, hknown⟩⟩
  have hloose : ∀ G' ∈ Γ.sites, G' ≠ G → (ψ G'.id).Loose := fun G' hG' _ => h.loose G' hG'
  have hfacts := h.steady.facts G hG
  have hinside := h.isOpen G hG rfl
  cases hφ : ψ G.id with
  | body held =>
    rw [hφ] at hfacts
    refine ⟨some held, step_owned hΓ hG (.inl hslot) hloose (hφ ▸ .park), ?_,
      h.frame.update_self (by rw [hφ]; rfl)⟩
    refine h.steady.own hΓ hG hsame ⟨(get?_set_ne hinHandler _).trans hfacts.1, hwaits hfacts.2.1,
      ?_⟩ trivial
    rintro _ ⟨⟩
    exact hfacts.2.2.congr fun x hx _ => get?_set_ne (hresource x hx) _
  | handling =>
    rw [hφ] at hfacts
    refine ⟨none, step_owned hΓ hG (.inl hslot) hloose (hφ ▸ .parkHandler), ?_,
      h.frame.update_self (by rw [hφ]; rfl)⟩
    exact h.steady.own hΓ hG hsame ⟨(get?_set_ne hinHandler _).trans hfacts.1, hwaits hfacts.2,
      fun _ hheld => absurd hheld (Option.not_mem_none _)⟩ trivial
  | _ =>
    rw [hφ] at hinside
    exact hinside.elim

/-- A machine whose guard has a tag to leave for ends. -/
theorem ensures_park_end {held : Option (SymbolId → Value)} (hφ : ψ m = .parked held tag)
    (h : Γ.Steady m ψ M.vars) (hquiet : Γ.Quiet ψ m) (hframe : ψ₀.Frame m ψ) :
    Ensures Γ.Step (Op.finish.record .events e (Γ.selectorOf m)) (Γ.Gone m ψ₀) ψ M := by
  have hstep : Γ.Step ψ (.finish (Γ.selectorOf m)) ψ := by
    refine h.step_machine hΓ rfl (fun G' hG' hid => ?_) (fun G' hG' houter => ?_) fun _ _ _ _ => rfl
    · rw [hφ, ← hid, hΓ.selectorOf_id hG']
      exact .parkEnd
    · exact .elsewhere (hquiet G' hG' houter) (not_mine_of_machine hΓ hG' (houter ▸ rfl)) id
  refine ensures_end hstep ⟨h.congr hΓ fun x hx _ => get?_set_ne hx _, hquiet, hframe⟩

/-- A transfer takes control away, so that no op after it is reached. -/
theorem Route.ensures (he : e.tags = Γ.tags) (hroute : Γ.Route m finals tag ops)
    (hψ : Γ.Leaving m (some tag) ψ ψ') (h : Γ.Running m ψ₀ finals ψ' M.vars) (rest : List Op) :
    Ensures Γ.Step (recordOps .events e (Γ.selectorOf m) (ops ++ rest)) (Γ.Gone m ψ₀) ψ M := by
  cases hroute with
  | within hxs htag =>
    rw [append_assoc]
    refine ensures_clears hΓ hxs hψ h fun M h => ensures_ops_cons ?_
    obtain ⟨place, finals', htarget, howner, hstands, hsuffix⟩ := htag
    have hstep : Γ.Step ψ' (.goto (Γ.selectorOf m) tag) ψ' :=
      h.step hΓ rfl (fun g hg => hg.symm) fun _ _ _ => id
    have hgoto : Γ.Step ψ (.goto (Γ.selectorOf m) tag) ψ' := by
      rcases hψ with rfl | ⟨G, rfl, hdeparts⟩
      · exact hstep
      · exact hdeparts.step hΓ hstep hdeparts.idle_self (.arriveAt howner)
    exact ensures_goto (he ▸ htarget) hgoto ((h.suffix hsuffix).waiting hΓ hstands)
  | finish hxs hroot htag =>
    rw [append_assoc]
    refine ensures_clears hΓ hxs hψ h fun M h => ensures_ops_cons ?_
    have hstep : Γ.Step ψ' (.finish (Γ.selectorOf m)) ψ' :=
      h.step hΓ rfl (fun g hg => hg.symm) fun _ _ _ => id
    have hfinish : Γ.Step ψ (.finish (Γ.selectorOf m)) ψ' := by
      rcases hψ with rfl | ⟨G, rfl, hdeparts⟩
      · exact hstep
      · have hexit : (Γ.guard G).exit = none := (congrArg Γ.exitOf hroot).trans hΓ.exitOf_root
        exact hdeparts.step hΓ hstep hdeparts.idle_self (htag ▸ .arriveEnd hexit)
    exact ensures_end hfinish (h.finished hΓ)
  | @leave xs G hxs hG hm htag hknown howner =>
    rw [append_assoc]
    refine ensures_clears hΓ hxs hψ h fun M h => ?_
    obtain ⟨held, hstep, hsteady, hframe⟩ := h.park hΓ hG hm htag hknown
    have hquiet : Γ.Quiet (update ψ' m (.parked held tag)) m := fun G' hG' houter => by
      rw [update_of_ne (houter ▸ (hΓ.outer_ne hG').symm)]
      exact h.quiet G' hG' houter
    have hpark : Γ.Step ψ (.assign G.fields.pendingJump tag.value)
        (update ψ' m (.parked held tag)) := by
      rcases hψ with rfl | ⟨G₀, rfl, hdeparts⟩
      · exact hstep
      · -- the guard that is left passes the tag on, and at once that around it has it waiting
        have hexit : (Γ.guard G₀).exit = some G.fields.pendingJump :=
          (congrArg Γ.exitOf hm.symm).trans (hΓ.exitOf_id hG)
        refine hdeparts.step hΓ hstep ?_ (.passOn hexit howner)
        rw [update_of_ne (hΓ.outer_ne hdeparts.mem).symm]
        exact hdeparts.idle_self
    refine ensures_const rfl hpark (ensures_ops_cons ?_)
    exact (ensures_park_end hΓ (update_self ..) hsteady hquiet hframe).mono fun r ψ M hr =>
      hr.then id

/-! ## The end of final code -/

omit hΓ in
theorem test_waits {x : Ident} {v : Value} (tag : Tag) (hx : x.symbol = some field)
    (hget : M.vars.get? field = some v) (h : Host) :
    (waits x tag).test h M = .ok (v.same tag.value) M := by
  have hload : Run.load x M = .ok v M := by
    have hfound : x.symbol.bind M.vars.get? = some v := by rw [hx]; exact hget
    have hmemory : (get : Run Memory) M = .ok M M := rfl
    refine (bind_of_ok hmemory _).trans ?_
    rw [hfound]
    rfl
  have heval : (waits x tag).eval h M = .ok (.bool (v.same tag.value)) M :=
    (bind_of_ok hload _).trans rfl
  exact (bind_of_ok heval _).trans rfl

omit hΓ in
theorem value_inj {a b : Tag} (ha : a.index < Text.int64Bound) (hb : b.index < Text.int64Bound)
    (h : Int64.ofNat a.index = Int64.ofNat b.index) : a = b := by
  have hint := congrArg Int64.toInt h
  rw [Int64.toInt_ofNat_of_lt ha, Int64.toInt_ofNat_of_lt hb] at hint
  obtain ⟨i⟩ := a
  exact congrArg Tag.mk (Int.ofNat_inj.mp hint)

omit hΓ in
/-- The field of a guard tells the tags apart. -/
theorem jumpValue_same (hjump : ∀ t ∈ jump, t.index < Text.int64Bound)
    (htag : tag.index < Text.int64Bound) :
    (jumpValue jump).same tag.value = decide (jump = some tag) := by
  cases jump with
  | none =>
    have hne : (-1 : Int64) ≠ Int64.ofNat tag.index := fun heq => by
      have hint := congrArg Int64.toInt heq
      rw [Int64.toInt_ofNat_of_lt htag] at hint
      have hneg : (-1 : Int64).toInt = -1 := by decide
      omega
    simpa [jumpValue, Tag.value, Value.same] using hne
  | some t =>
    by_cases heq : t = tag
    · simp [heq, jumpValue, Tag.value, Value.same]
    · have hne : Int64.ofNat t.index ≠ Int64.ofNat tag.index := fun h =>
        heq (value_inj (hjump t rfl) htag h)
      simpa [heq, jumpValue, Tag.value, Value.same] using hne

theorem Route.index_lt (hroute : Γ.Route m finals tag ops) : tag.index < Text.int64Bound := by
  cases hroute with
  | within _ htag =>
    obtain ⟨place, -, htarget, -⟩ := htag
    obtain ⟨slot, hslot, -⟩ := Option.bind_eq_some_iff.mp htarget
    exact Nat.lt_trans (Array.getElem?_eq_some_iff.mp hslot).1 hΓ.tags_lt
  | finish _ _ htag =>
    rw [htag]
    decide
  | leave _ _ _ _ hknown => exact Nat.lt_trans hknown hΓ.tags_lt

/-- The tag that waits is found among the exits, if there is one. -/
theorem Routes.ensures (he : e.tags = Γ.tags) {tags : List Tag} {rest : List Op}
    (hroutes : Γ.Routes m finals field tags ops)
    (hjump : ∀ t ∈ jump, t ∈ tags ∧ t.index < Γ.tags.size)
    (hfield : M.vars.get? field = some (jumpValue jump)) (hψ : Γ.Leaving m jump ψ ψ')
    (h : Γ.Running m ψ₀ finals ψ' M.vars) (hQ : ∀ r ψ M, Γ.Gone m ψ₀ r ψ M → Q r ψ M)
    (hrest : jump = none → Ensures Γ.Step (recordOps .events e (Γ.selectorOf m) rest) Q ψ M) :
    Ensures Γ.Step (recordOps .events e (Γ.selectorOf m) (ops ++ rest)) Q ψ M := by
  induction hroutes with
  | nil =>
    refine hrest ?_
    cases jump with
    | none => rfl
    | some t => cases (hjump t rfl).1
  | @cons x tag tags ops more hx hroute hmore ih =>
    have htest := test_waits tag hx hfield e.host
    rw [jumpValue_same (fun t ht => Nat.lt_trans (hjump t ht).2 hΓ.tags_lt)
      (hroute.index_lt hΓ)] at htest
    refine ensures_ops_cons (ensures_bind (ensures_lift ?_))
    rw [htest]
    by_cases heq : jump = some tag
    · rw [decide_eq_true heq]
      have htransfer := hroute.ensures hΓ he (heq ▸ hψ) h []
      rw [append_nil] at htransfer
      exact htransfer.mono fun r ψ M hr => hr.then (hQ r ψ M)
    · rw [decide_eq_false heq]
      refine ensures_pure (ih fun t ht => ⟨?_, (hjump t ht).2⟩)
      refine (mem_cons.mp (hjump t ht).1).resolve_left fun h => heq ?_
      rw [← h]
      exact ht

/-- A guard in the machine changes its phase where control is outside of all others. -/
theorem Running.depart (h : Γ.Running m ψ₀ finals ψ vars) (hG : G ∈ Γ.sites) (hm : G.outer = m)
    (hsuffix : finals' <:+ finals) (hnot : G.id ∉ finals')
    (hsame : ∀ x, ¬ Γ.Slot G x → x ≠ Γ.selectorOf m → ¬ Γ.Free x → vars'.get? x = vars.get? x) :
    Γ.Running m ψ₀ finals' (update (update ψ G.id φ) G.id .idle) vars' := by
  rw [update_idem]
  have hne : m ≠ G.id := hm ▸ hΓ.outer_ne hG
  have hdead : Γ.Quiet ψ G.id := h.steady.dead G hG (h.quiet G hG hm).not_active
  refine ⟨h.steady.move hΓ hG hm hsame trivial (fun _ => hdead) False.elim, fun G' hG' hid => ?_,
    fun G' hG' houter => ?_, fun g hg => ?_, h.frame.update ?_ _⟩
  · rw [update_of_ne hne]
    exact h.isOpen G' hG' hid
  · by_cases heq : G' = G
    · rw [heq, update_self]
      trivial
    · rw [hΓ.update_ne hG hG' heq]
      exact h.quiet G' hG' houter
  · obtain ⟨G', hG', rfl, houter, hfinal⟩ := h.finals g (hsuffix.subset hg)
    refine ⟨G', hG', rfl, houter, ?_⟩
    rw [hΓ.update_ne hG hG' fun heq => hnot (heq ▸ hg)]
    exact hfinal
  · rw [← hm]
    exact (hΓ.lies G hG).outer_lt

/-- The end of final code: a failure that waits goes on, or control does. -/
theorem ensures_settle (he : e.tags = Γ.tags) {routes : List Op}
    (h : Γ.Running m ψ₀ finals ψ M.vars) (hG : G ∈ Γ.sites) (hm : G.outer = m)
    (hfinals : finals = G.id :: G.finals)
    (hroutes : Γ.Routes m G.finals G.fields.pendingJump G.exits routes)
    (hend : Γ.Resumes m G.finals G.endTag) :
    Ensures Γ.Step (recordOps .events e (Γ.selectorOf m)
      (.rethrow G.fields.pending :: routes ++ .jump G.endTag :: ops))
      (Γ.Gone m ψ₀) ψ M := by
  have hregular := hΓ.regular G hG
  have hslot : G.fields.pending ∈ G.steering := by simp [Site.steering]
  have hjumpne : G.fields.pendingJump ≠ G.fields.pending := by
    rw [hregular.pending, hregular.pendingJump]
    simp
  -- the guard is in its final code
  obtain ⟨G', hG', hid, -, hfinal⟩ := h.finals G.id (hfinals ▸ mem_cons_self)
  cases hφ : ψ G.id with
  | final failure jump =>
    have hfacts := h.steady.facts G hG
    rw [hφ] at hfacts
    have hwaits : Γ.Waits G M.vars failure jump := hfacts
    have hothers : ∀ G' ∈ Γ.sites, G' ≠ G → (ψ G'.id).Loose := fun G' hG' _ => h.loose G' hG'
    have hsame : ∀ x, ¬ Γ.Slot G x → x ≠ Γ.selectorOf m → ¬ Γ.Free x →
        (M.vars.set G.fields.pending .null).get? x = M.vars.get? x :=
      fun x hx _ _ => get?_set_ne (fun heq : x = _ => hx (heq ▸ .inl hslot)) _
    have hsuffix : G.finals <:+ finals := hfinals ▸ suffix_cons ..
    have hlast := fun φ => h.depart (φ := φ) hΓ hG hm hsuffix (hΓ.not_mem_finals hG) hsame
    have htake : Run.takeField G.fields.pending M =
        .ok (failure.getD .null) { M with vars := M.vars.set G.fields.pending .null } := by
      have hold : (M.vars.get? G.fields.pending).getD .null = failure.getD .null := by
        rw [hwaits.pending]; rfl
      rw [← hold]
      rfl
    refine ensures_ops_cons (ensures_bind (ensures_lift ?_))
    rw [htake]
    cases hnull : (failure.getD .null).isNull with
    | true =>
      have heq : failure.getD .null = .null := by
        cases hv : failure.getD .null <;> rw [hv] at hnull <;> first | rfl | cases hnull
      have hstep : Γ.Step ψ (.settle G.fields.pending .null)
          (update ψ G.id (.released jump)) :=
        step_owned hΓ hG rfl hothers (hφ ▸ .release heq)
      rw [heq]
      refine ensures_bind (ensures_log hstep (ensures_pure ?_))
      have hψ : Γ.Leaving m jump (update ψ G.id (.released jump))
          (update (update ψ G.id (.released jump)) G.id .idle) :=
        .inr ⟨G, hm, hG, update_self .., rfl⟩
      refine Routes.ensures hΓ he hroutes hwaits.exits
        ((get?_set_ne hjumpne _).trans hwaits.pendingJump) hψ
        (hlast _) (fun r ψ M hr => hr) fun hjump => ensures_ops_cons ?_
      -- nothing waits, and control goes on behind the guard
      subst hjump
      obtain ⟨place, htarget, howner, hstands⟩ := hend
      have hgoto : Γ.Step (update (update ψ G.id (.released none)) G.id .idle)
          (.goto (Γ.selectorOf m) G.endTag) _ :=
        (hlast _).step hΓ rfl (fun g hg => hg.symm) fun _ _ _ => id
      have hdeparts : Γ.Departs G (.released none) (update ψ G.id (.released none)) _ :=
        ⟨hG, update_self .., rfl⟩
      refine ensures_goto (he ▸ htarget) (hdeparts.step hΓ hgoto hdeparts.idle_self ?_)
        ((hlast _).waiting hΓ hstands)
      exact hm ▸ .behind
    | false =>
      obtain ⟨v, rfl⟩ : ∃ v, failure = some v := by
        cases failure with
        | none => cases hnull
        | some v => exact ⟨v, rfl⟩
      have hstep : Γ.Step ψ (.settle G.fields.pending v) (update ψ G.id (.raising v)) :=
        step_owned hΓ hG rfl hothers (hφ ▸ .settle hnull)
      refine ensures_bind (ensures_log hstep ?_)
      rw [if_neg (by rw [hnull]; decide)]
      refine ensures_lift fun _ =>
        ⟨_, (hlast (.raising v)).suffix nil_suffix, .inr ⟨v, G, rfl, hm, ?_⟩⟩
      exact ⟨hG, update_self .., rfl⟩
  | _ =>
    rw [hφ] at hfinal
    exact hfinal.elim

/-! ## The way into a guard -/

omit hΓ in
/-- Variables are emptied one after the other. -/
theorem ensures_nulls {σ : Type} {step : σ → Event → σ → Prop} {s : σ} {Q : Post σ Flow}
    {selector : SymbolId} {xs : List SymbolId} (hstep : ∀ x ∈ xs, step s (.assign x .null) s)
    (hops : ∀ vars, (∀ y, y ∉ xs → vars.get? y = M.vars.get? y) →
      (∀ x ∈ xs, vars.get? x = some .null) →
      Ensures step (recordOps .events e selector ops) Q s { M with vars := vars }) :
    Ensures step (recordOps .events e selector (xs.map (fun x => .assign x .null) ++ ops))
      Q s M := by
  induction xs generalizing M with
  | nil => exact hops M.vars (fun _ _ => rfl) nofun
  | cons x xs ih =>
    refine ensures_const rfl (hstep x mem_cons_self)
      (ih (fun y hy => hstep y (mem_cons_of_mem _ hy)) fun vars hsame hnull => hops vars
        (fun y hy => ?_) ?_)
    · rw [mem_cons, not_or] at hy
      exact (hsame y hy.2).trans (get?_set_ne hy.1 _)
    · intro y hy
      by_cases hmem : y ∈ xs
      · exact hnull y hmem
      · obtain rfl := (mem_cons.mp hy).resolve_right hmem
        exact (hsame y hmem).trans (get?_set_self ..)

/-- A guard is entered: its fields get their first values, and control goes to its state. -/
theorem ensures_enter (he : e.tags = Γ.tags) (h : Γ.Running m ψ₀ finals ψ M.vars) (hG : G ∈ Γ.sites)
    (hm : G.outer = m) (hfinals : G.finals = finals) :
    Ensures Γ.Step (recordOps .events e (Γ.selectorOf m) (G.reset ++ .jump G.tag :: ops))
      (Γ.Gone m ψ₀) ψ M := by
  have hlies := hΓ.lies G hG
  obtain ⟨⟨hselector, hinHandler, hpending⟩, ⟨hinHandler', hpending'⟩, hpendingJump⟩ :=
    Guard.steering_ne (hΓ.regular G hG).nodup
  have hsteering : ∀ x ∈ G.steering, x ∉ G.fields.resources := fun x hx hmem =>
    hlies.resources x hmem (hlies.steers x hx)
  have hne : m ≠ G.id := hm ▸ hΓ.outer_ne hG
  obtain ⟨ψ₁, hψ₁⟩ : ∃ ψ₁, ψ₁ = update ψ G.id (.body fun _ => .null) := ⟨_, rfl⟩
  have hbody : ψ₁ G.id = .body fun _ => .null := hψ₁ ▸ update_self ..
  have hothers : ∀ G' ∈ Γ.sites, G' ≠ G → (ψ₁ G'.id).Loose := fun G' hG' hne => by
    rw [hψ₁, hΓ.update_ne hG hG' hne]
    exact h.loose G' hG'
  have hown : ∀ {x v}, Γ.Slot G x → (Γ.guard G).Step Γ.tags Γ.kept (ψ₁ G.id) (.assign x v)
      (ψ₁ G.id) →
      Γ.Step ψ₁ (.assign x v) ψ₁ := fun {x v} hx hstep => by
    have hmove : Γ.Step ψ₁ (.assign x v) _ := step_owned hΓ hG hx hothers hstep
    rwa [update_eq_self] at hmove
  have henter : Γ.Step ψ (.assign G.selector (.int 1)) ψ₁ :=
    hψ₁ ▸ step_owned hΓ hG (.inl mem_cons_self) (fun G' hG' _ => h.loose G' hG')
      (.enter (h.quiet G hG hm))
  have hreset : ∀ {x v}, x ∈ G.steering → (Γ.guard G).Resets (.assign x v) →
      Γ.Step ψ₁ (.assign x v) ψ₁ :=
    fun hx hev => hown (.inl hx) (hbody ▸ .reset hev)
  have hnull : ∀ x ∈ G.fields.resources, Γ.Step ψ₁ (.assign x .null) ψ₁ := by
    intro x hx
    by_cases hkept : Γ.kept x
    · have hhold : (Γ.guard G).Step Γ.tags Γ.kept (.body fun _ => .null) (.assign x .null) _ :=
        .hold hx hkept
      rw [update_eq_self] at hhold
      exact hown (.inr ⟨hx, hkept⟩) (hbody ▸ hhold)
    · refine step_assign hΓ (fun G' hG' => ?_) ⟨hlies.resources x hx, hkept⟩ .null
      by_cases heq : G' = G
      · rw [heq, hbody]
        exact .inl trivial
      · exact hothers G' hG' heq
  rw [Site.reset, List.append_assoc]
  refine ensures_const rfl henter
    (ensures_const rfl (hreset (by simp [Site.steering]) (.inl ⟨rfl, rfl⟩))
    (ensures_const rfl (hreset (by simp [Site.steering]) (.inr (.inl ⟨rfl, rfl⟩)))
    (ensures_const rfl (hreset (by simp [Site.steering]) (.inr (.inr ⟨rfl, rfl⟩)))
    (ensures_nulls hnull fun vars hsame hempty => ensures_ops_cons ?_))))
  have hsteady : Γ.Steady m ψ₁ vars := by
    subst hψ₁
    refine h.steady.move hΓ hG hm (fun x hslot _ hfree => ?_)
      ⟨?_, ⟨?_, ?_, exits_none⟩, fun x hx _ => hempty x hx⟩
      (fun hnot => absurd trivial hnot) fun _ =>
        ⟨0, .first, ?_, hlies.start, ?_, _, update_self ..⟩
    · have hsteer : ∀ y ∈ G.steering, x ≠ y := fun y hy heq => hslot (.inl (heq ▸ hy))
      have hres : x ∉ G.fields.resources := fun hx => hslot (.inr ⟨hx, by
        by_contra hkept
        exact hfree ⟨hlies.resources x hx, hkept⟩⟩)
      rw [hsame x hres]
      simp only [Store.get?_set]
      rw [if_neg (hsteer _ (by simp [Site.steering])), if_neg (hsteer _ (by simp [Site.steering])),
        if_neg (hsteer _ (by simp [Site.steering])), if_neg (hsteer _ (by simp [Site.steering]))]
    · rw [hsame _ (hsteering _ (by simp [Site.steering]))]
      simp [hinHandler', hpending', Value.ofLiteral]
    · rw [hsame _ (hsteering _ (by simp [Site.steering]))]
      simp [hpendingJump, Value.ofLiteral]
    · rw [hsame _ (hsteering _ (by simp [Site.steering]))]
      simp [jumpValue, Value.ofLiteral]
    · rw [hΓ.selectorOf_id hG, hsame _ (hsteering _ (by simp [Site.steering]))]
      simp [hselector, hinHandler, hpending]
      rfl
    · intro G' hG' houter
      rw [hΓ.update_ne hG hG' fun heq => hΓ.outer_ne hG (heq ▸ houter)]
      exact h.steady.dead G hG (h.quiet G hG hm).not_active G' hG' houter
  have hopen : Γ.Open ψ₁ m := fun G' hG' hid => by
    rw [hψ₁, update_of_ne hne]
    exact h.isOpen G' hG' hid
  have hbusy : Γ.Busy ψ₁ G Phase.Active := by
    refine ⟨hbody ▸ trivial, fun G' hG' houter hne => ?_, fun g hg => ?_⟩
    · rw [hψ₁, hΓ.update_ne hG hG' hne]
      exact h.quiet G' hG' (houter.trans hm)
    · obtain ⟨G', hG', rfl, houter, hfinal⟩ := h.finals g (hfinals ▸ hg)
      refine ⟨G', hG', rfl, houter.trans hm.symm, ?_⟩
      rw [hψ₁, hΓ.update_ne hG hG' fun heq => hΓ.not_mem_finals hG (heq ▸ hg)]
      exact hfinal
  have hgoto : Γ.Step ψ₁ (.goto (Γ.selectorOf m) G.tag) ψ₁ := by
    refine hsteady.step_machine hΓ rfl (fun G' hG' hid => ?_)
      (fun G' hG' houter => ?_) fun _ _ _ _ => rfl
    · refine .inner (hopen G' hG' hid) ?_
      show Γ.selectorOf m = G'.selector
      rw [← hid, hΓ.selectorOf_id hG']
    · by_cases heq : G' = G
      · subst heq
        exact .through (hbody ▸ trivial) ⟨houter ▸ rfl, hlies.tag_target⟩
      · exact .elsewhere (hbusy.others G' hG' (houter.trans hm.symm) heq)
          (not_mine_of_machine hΓ hG' (houter ▸ rfl)) id
  refine ensures_goto (he ▸ hlies.tag_target) hgoto
    ⟨hsteady.congr hΓ fun x hx _ => get?_set_ne hx _, hopen,
    ⟨G.place, .guard G.id G.finals, get?_set_self .., hm ▸ hlies.guard, G, hG, rfl, hm, rfl, hbusy⟩,
    fun G' hG' houter hactive => ?_, hψ₁ ▸ h.frame.update (hm ▸ hlies.outer_lt) _⟩
  by_cases heq : G' = G
  · rw [heq, hbody]
    trivial
  · exact absurd (hbusy.others G' hG' (houter.trans hm.symm) heq) hactive.not_outside

/-! ## Whole lists of ops -/

/-- A switch goes to one of its arms. -/
theorem ensures_switch (he : e.tags = Γ.tags) {arms : List SwitchArm}
    (h : Γ.Running m ψ₀ finals ψ M.vars) (hvalue : ∀ y ∈ value.writes, Γ.Free y)
    (harms : ∀ arm ∈ arms, (∀ y ∈ writesOf arm.labels, Γ.Free y) ∧ Γ.Leads m finals arm.target) :
    Ensures Γ.Step ((Op.switch value arms).record .events e (Γ.selectorOf m))
      (Γ.After m ψ₀ finals) ψ M := by
  refine ensures_bind (h.user hΓ (value.eval_touches e.host hvalue) (fun v M' h => ?_)
    fun f M' h _ => h.raised f)
  have htouches : (Run.chooseArm e.host v arms).Touches Γ.Free :=
    Run.touches_chooseArm e.host v arms fun arm harm => (harms arm harm).1
  refine ensures_bind (ensures_touches_eq htouches fun r M'' hsame hr => ?_)
  have h'' := h.congr hΓ fun x _ hx => hsame x hx
  match r with
  | .error f => exact fun _ => h''.raised f
  | .ok none => exact ensures_pure h''
  | .ok (some tag) =>
    obtain ⟨arm, harm, rfl⟩ := Run.chooseArm_mem e.host v arms _ _ _ (hr _ rfl) tag rfl
    exact (ensures_jump hΓ he h'' (harms arm harm).2).mono fun r ψ M hr => hr.after

/-- **Laid out ops keep the invariant.** -/
theorem Laid.ensures (he : e.tags = Γ.tags) (hops : Γ.Laid m finals ops)
    (h : Γ.Running m ψ₀ finals ψ M.vars) :
    Ensures Γ.Step (recordOps .events e (Γ.selectorOf m) ops) (Γ.After m ψ₀ finals) ψ M := by
  induction hops generalizing ψ M with
  | nil => exact ensures_pure h
  | plain hs _ ih =>
    exact ensures_ops_cons ((ensures_plain hΓ h hs).mono fun _ _ _ hr => hr.then fun _ _ => ih)
  | assign hx hvalue _ ih =>
    exact ensures_ops_cons
      ((ensures_assign hΓ h hx hvalue).mono fun _ _ _ hr => hr.then fun _ _ => ih)
  | clear hx _ ih =>
    exact ensures_ops_cons ((ensures_clear hΓ h hx).mono fun _ _ _ hr => hr.then fun _ _ => ih)
  | emit htag hvalue => exact (ensures_emit hΓ he h htag hvalue).mono fun _ _ _ hr => hr.after
  | jump htag =>
    exact ensures_ops_cons ((ensures_jump hΓ he h htag).mono fun _ _ _ hr => hr.then Gone.after)
  | finish =>
    exact ensures_ops_cons ((ensures_finish hΓ h).mono fun _ _ _ hr => hr.then Gone.after)
  | cond htest _ _ _ ihYes ihNo ih =>
    refine ensures_ops_cons (ensures_bind (h.user hΓ (Expr.test_touches e.host _ htest)
      (fun b M' h => ?_) fun f M' h _ => h.raised f))
    cases b with
    | true => exact (ihYes h).mono fun _ _ _ hr => hr.then fun _ _ => ih
    | false => exact (ihNo h).mono fun _ _ _ hr => hr.then fun _ _ => ih
  | switch hvalue harms _ ih =>
    exact ensures_ops_cons ((ensures_switch hΓ he h hvalue harms).mono fun _ _ _ hr => hr.then
      fun _ _ => ih)
  | synchronized hvalue _ _ ihBody ih =>
    refine ensures_ops_cons (ensures_bind (h.user hΓ (lock_touches e.host _ hvalue)
      (fun _ M' h => ?_) fun f M' h _ => h.raised f))
    exact (ihBody h).mono fun _ _ _ hr => hr.then fun _ _ => ih
  | route hroute =>
    exact (hroute.ensures hΓ he (.inl rfl) h _).mono fun _ _ _ hr => hr.after
  | enter hG hm hfinals => exact (ensures_enter hΓ he h hG hm hfinals).mono fun _ _ _ hr => hr.after
  | settle hG hm hfinals hroutes hend =>
    exact (ensures_settle hΓ he h hG hm hfinals hroutes hend).mono fun _ _ _ hr => hr.after

end Plan

end Lowering

end Resumable
