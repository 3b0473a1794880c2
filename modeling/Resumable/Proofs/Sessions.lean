import Resumable.Proofs.Guarded
import Resumable.Proofs.WellFormed

/-!
# Sessions are safe

What holds of one run of a machine holds of all calls to a generator.

* `GeneratorClass.Fits`: the numbers of a class fit where they are kept;
* `Plan.Governs.sound`: the plan of such a class makes sense;
* `Plan.Governs.session`: whatever a generator is asked, in whatever world, all that its machines do
  fits into the protocols of the guards;
* `Procedure.lower_hangs_together`: machines never leave the structure that lowering gives them.
-/

namespace Resumable

open List

/-- The numbers of a class fit where they are kept: those of states, machines and variables in
32-bit words, and tags in fields that hold 64-bit words with a sign. -/
structure GeneratorClass.Fits (cls : GeneratorClass) : Prop where
  tags : cls.tags.size < Text.int64Bound
  states : ∀ M ∈ cls.advance.machines, M.states.length < Text.word32Bound
  machines : cls.advance.machines.length ≤ Text.word32Bound
  symbols : cls.symbols.size ≤ Text.word32Bound

instance (cls : GeneratorClass) : Decidable cls.Fits :=
  decidable_of_iff (cls.tags.size < Text.int64Bound ∧
    (∀ M ∈ cls.advance.machines, M.states.length < Text.word32Bound) ∧
    cls.advance.machines.length ≤ Text.word32Bound ∧ cls.symbols.size ≤ Text.word32Bound)
    ⟨fun ⟨ht, hs, hm, hx⟩ => ⟨ht, hs, hm, hx⟩, fun ⟨ht, hs, hm, hx⟩ => ⟨ht, hs, hm, hx⟩⟩

theorem Watched.bind_of_ok {α β : Type} {c : Watched Event α} {m m' : Memory}
    {events : List Event} {a : α} (h : c m = (events, .ok a m')) (f : α → Watched Event β) :
    (c >>= f) m = (events ++ (f a m').1, (f a m').2) := by
  show Watched.bind c f m = _
  rw [Watched.bind, h]

namespace Instance

variable {h : Host} {fuel : Nat} {g g' : Instance} {w w' : World} {c : Call} {a : Answer}

/-- A call changes no field while a value is kept. -/
theorem same_of_reply (hbuffered : g.buffered.isSome)
    (hcall : g.reply h fuel c w = .ok (a, g') w') : g'.cls = g.cls ∧ g'.vars = g.vars := by
  obtain ⟨v, hv⟩ := Option.isSome_iff_exists.mp hbuffered
  rw [reply_of_buffered hv] at hcall
  cases c with
  | hasNext | next | next? =>
    cases hcall
    exact ⟨rfl, rfl⟩

/-- Any other call costs an advance, and tells its fault. -/
theorem advance_of_reply (hbuffered : g.buffered = none)
    (hcall : g.reply h fuel c w = .ok (a, g') w') :
    ∃ r g₁, g.advance h fuel w = .ok (r, g₁) w' ∧ g'.cls = g₁.cls ∧ g'.vars = g₁.vars ∧
      ∀ f, r = .error f → a = .fault f := by
  rw [reply_of_bare hbuffered] at hcall
  rcases hadvance : g.advance h fuel w with ⟨⟨f | (_ | v), g₁⟩, w₁⟩ | ⟨e, w₁⟩
  all_goals rw [hadvance] at hcall
  · cases hcall
    exact ⟨_, g', rfl, rfl, rfl, fun _ heq => by cases heq; rfl⟩
  · cases hcall
    exact ⟨_, g', rfl, rfl, rfl, nofun⟩
  · cases c with
    | hasNext | next | next? =>
      cases hcall
      exact ⟨_, g₁, rfl, rfl, rfl, nofun⟩
  · cases hcall

theorem advance_zero : g.advance h 0 w = .error .outOfFuel w := by
  have hrun : g.cls.advance.exec ⟨h, g.cls.tags, 0⟩ ⟨g.vars, w⟩ = .error .outOfFuel
      ⟨g.vars, w⟩ := by
    obtain ⟨id, selector, states⟩ := g.cls.advance
    rfl
  unfold advance
  rw [hrun]

/-- A root machine that has ended does nothing. -/
theorem events_of_finished (hselector : g.selector? = some .finished) : g.events h fuel w = [] := by
  unfold events
  split
  · rfl
  · obtain ⟨cls, vars, buffered⟩ := g
    rcases hm : cls.advance with ⟨id, selector, states⟩
    have hfield : Run.field selector ⟨vars, w⟩ = .ok Value.finished ⟨vars, w⟩ := by
      have hget : vars.get? cls.advance.selector = some .finished := hselector
      rw [hm] at hget
      exact Run.field_of_get? hget
    cases fuel with
    | zero => rfl
    | succ =>
      have hzero : Recorder.events.own (do (← Run.field selector).asInt) ⟨vars, w⟩ =
          ([], .ok (0 : Int64) (⟨vars, w⟩ : Memory)) := by
        simp only [Recorder.events, Watched.logFault, bind_of_ok hfield]
        rfl
      simp only [Machine.record, Recorder.dispatch, Watched.loop]
      rw [Watched.bind_of_ok hzero]
      rfl

end Instance

namespace Lowering

open Watched

namespace Plan

variable {faults faults' : List Fault}
variable {Γ : Plan} {p : Procedure} {settings : Settings} {cls : GeneratorClass} {ψ : Phases}
  {vars : Store} {g : Instance}

namespace Governs

variable (h : Γ.Governs p settings cls)
include h

/-- **The plan of a class makes sense.** -/
theorem sound (hfits : cls.Fits) : Γ.Sound where
  lies := h.lies
  unique := fun _ hG _ hG' => h.unique hG hG'
  not_root := fun _ => h.not_root
  regular := h.regular
  steers := h.steers
  after := h.after
  spaced := h.spaced
  resources := by
    have hdeclares := List.Nodup.of_append_right p.resolve_scoped.1.nodup
    rw [resources_of_serves h.tries]
    exact hdeclares.sublist (Stmt.triesAll_declares _ _)
  ended := fun G hG => h.ended G.machine (h.mem_machines hG)
  tags_lt := h.tags ▸ hfits.tags
  places_lt := by
    have hlt : ∀ {M : Machine} {zones : List Zone} {place : Nat} {z : Zone},
        M ∈ cls.advance.machines →
        zones.length = M.states.length → zones[place]? = some z → place + 1 < Text.int64Bound :=
      fun hM hlength hz => Nat.lt_of_le_of_lt (hlength ▸ (List.getElem?_eq_some_iff.mp hz).1)
        (Nat.lt_trans (hfits.states _ hM) (by decide))
    rintro m place z (⟨-, hz⟩ | ⟨G, hG, -, hz⟩)
    · exact hlt (h.machines.mem_iff.mpr mem_cons_self) h.tiles.length hz
    · exact hlt (h.mem_machines hG) (h.site_tiles hG).length hz

/-- The root machine keeps the invariant. -/
theorem ensures_advance (hfits : cls.Fits) (host : Host) (fuel : Nat) (hresting : Γ.Resting ψ vars)
    (w : World) :
    Ensures Γ.Step (cls.advance.record .events ⟨host, cls.tags, fuel⟩) (Γ.Stopped .root ψ) ψ
      ⟨vars, w⟩ := by
  have hΓ := h.sound hfits
  have hnone : ∀ G ∈ Γ.sites, G.id = .root → False := fun G hG => hΓ.not_root G hG
  have halive : Γ.Alive ψ .root := ⟨.inl rfl, fun G hG hid => (hnone G hG hid).elim⟩
  have hwaiting : Γ.Waiting .root ψ ψ vars :=
    ⟨hresting.steady halive, fun G hG hid => (hnone G hG hid).elim, hresting.rest .root halive,
      fun G hG _ hactive => hactive.inside (hresting.loose G hG), .refl ψ⟩
  have hzones : ∀ place z, Γ.Stands .root place z → Γ.zones[place]? = some z := by
    rintro place z (⟨-, hz⟩ | ⟨G, hG, hid, -⟩)
    · exact hz
    · exact (hnone G hG hid).elim
  have hselector : cls.advance.selector = Γ.selectorOf .root := by
    rw [hΓ.selectorOf_root, h.selector]
  refine ensures_machine hΓ hselector hzones h.tiles.length
    (h.ended _ (h.machines.mem_iff.mpr mem_cons_self)) (fun place z state hz hstate => ?_) hwaiting
  exact (h.tiles.laid place z state hz hstate).safe hΓ h.tags.symm

/-- A new generator has all guards idle. -/
theorem resting_new (hfits : cls.Fits) {args : List Value} (hnew : Instance.new cls args = .ok g) :
    Γ.Resting (fun _ => .idle) g.vars := by
  obtain ⟨rfl, -, hselector⟩ := Instance.new_eq_ok hnew
  refine ⟨fun _ _ => trivial, fun _ _ => .inr trivial, fun _ _ _ _ _ _ => trivial, fun m hm => ?_⟩
  rcases hm with ⟨rfl | ⟨G, hG, rfl⟩, hactive⟩
  · refine ⟨0, _, ?_, h.start, fun _ _ _ => trivial, nofun⟩
    rw [(h.sound hfits).selectorOf_root, h.selector]
    exact hselector
  · exact (hactive G hG rfl).elim

end Governs

/-- Control is outside of all guards, but that one of them may have raised a failure that a call has
told. -/
def Left (Γ : Plan) (ψ : Phases) (faults : List Fault) : Prop :=
  ∀ G ∈ Γ.sites, (ψ G.id).Outside ∨ ∃ v, ψ G.id = .raising v ∧ Fault.thrown v ∈ faults

theorem Left.mono (h : Γ.Left ψ faults) (hsub : faults ⊆ faults') : Γ.Left ψ faults' := by
  intro G hG
  rcases h G hG with houtside | ⟨v, hv, hmem⟩
  · exact .inl houtside
  · exact .inr ⟨v, hv, hsub hmem⟩

/-- What holds of a generator between two calls that have told those faults: its guards are in
phases that allow it to go on, or it is over. Nothing is said of guards after a fault that no
handler may see. -/
def Idle (Γ : Plan) (ψ : Phases) (faults : List Fault) (g : Instance) : Prop :=
  Γ.Resting ψ g.vars ∨ g.selector? = some .finished ∧
    ((∀ f ∈ faults, f.isCatchable) → Γ.Left ψ faults)

theorem Idle.congr {g' : Instance} (h : Γ.Idle ψ faults g) (hcls : g'.cls = g.cls)
    (hvars : g'.vars = g.vars) (hsub : faults ⊆ faults') : Γ.Idle ψ faults' g' := by
  rcases h with hresting | ⟨hselector, hleft⟩
  · exact .inl (hvars ▸ hresting)
  · refine .inr ⟨?_, fun hfaults => (hleft fun f hf => hfaults f (hsub hf)).mono hsub⟩
    rw [Instance.selector?, hcls, hvars]
    exact hselector

/-- Where control is outside of all guards of the root machine, it is outside of all guards. -/
theorem Quiet.outside (hΓ : Γ.Sound) (hquiet : Γ.Quiet ψ .root)
    (hdead : ∀ G ∈ Γ.sites, ¬ (ψ G.id).Active → Γ.Quiet ψ G.id) :
    ∀ G ∈ Γ.sites, (ψ G.id).Outside := by
  -- by induction on the number of the machine: the guard around it has a smaller one
  have hall : ∀ n, ∀ G ∈ Γ.sites, G.id.number < n → (ψ G.id).Outside := by
    intro n
    induction n with
    | zero => exact fun G _ hlt => absurd hlt (Nat.not_lt_zero _)
    | succ n ih =>
      intro G hG hlt
      rcases hΓ.outer_isMachine hG with hroot | ⟨G', hG', hid⟩
      · exact hquiet G hG hroot
      · have hlt' : G'.id.number < G.id.number := by
          rw [hid]
          exact (hΓ.lies G hG).outer_lt
        have houtside := ih G' hG' (Nat.lt_of_lt_of_le hlt' (Nat.le_of_lt_succ hlt))
        exact hdead G' hG' houtside.not_active G hG hid.symm
  exact fun G hG => hall (G.id.number + 1) G hG (Nat.lt_succ_self _)

theorem Finished.left (hΓ : Γ.Sound) {ψ₀ : Phases} (h : Γ.Finished .root ψ₀ ψ vars) :
    Γ.Left ψ faults :=
  fun G hG => .inl (h.quiet.outside hΓ h.steady.dead G hG)

theorem Raised.left (hΓ : Γ.Sound) {ψ₀ : Phases} {f : Fault} (h : Γ.Raised .root ψ₀ f ψ vars)
    (hf : f ∈ faults) : Γ.Left ψ faults := by
  obtain ⟨ψ', hrunning, hψ⟩ := h
  have houtside := hrunning.quiet.outside hΓ hrunning.steady.dead
  intro G hG
  rcases hψ with rfl | ⟨v, G', rfl, -, hdeparts⟩
  · exact .inl (houtside G hG)
  · by_cases heq : G = G'
    · exact .inr ⟨v, heq ▸ hdeparts.phase, hf⟩
    · exact .inl (hdeparts.other hΓ hG heq ▸ houtside G hG)

namespace Governs

variable (h : Γ.Governs p settings cls) {faults : List Fault}
include h

/-- The guards follow an advance. -/
theorem advance (hfits : cls.Fits) (hcls : g.cls = cls) (hidle : Γ.Idle ψ faults g)
    (hbuffered : g.buffered = none) (host : Host) (fuel : Nat) (w : World) :
    ∃ ψ', Follows Γ.Step ψ (g.events host fuel w) ψ' ∧
      ∀ r g' w', g.advance host fuel w = .ok (r, g') w' →
      g'.cls = cls ∧ ∀ faults', faults ⊆ faults' → (∀ f, r = .error f → f ∈ faults') →
      Γ.Idle ψ' faults' g' := by
  rcases hidle with hresting | ⟨hselector, hleft⟩
  · obtain ⟨ψ', hfollows, hpost⟩ := h.ensures_advance hfits host fuel hresting w
    refine ⟨ψ', ?_, fun r g' w' hadvance => ⟨(Instance.same_of_advance hadvance).1.trans hcls, ?_⟩⟩
    · rw [Instance.events, hbuffered, hcls]
      exact hfollows
    · intro faults' hsub hfault
      obtain ⟨vars, hrun, heq⟩ := Instance.advance_eq hadvance
      rw [hcls, ← Machine.erase_record .events] at hrun
      rw [show (cls.advance.record .events _ _).2 = _ from hrun] at hpost
      rcases r with f | (_ | v)
      · have hover := Instance.over_of_advance hbuffered hadvance nofun
        refine .inr ⟨hover.selector, fun hcatchable => ?_⟩
        exact (hpost (hcatchable f (hfault f rfl))).left (h.sound hfits) (hfault f rfl)
      · have hover := Instance.over_of_advance hbuffered hadvance nofun
        exact .inr ⟨hover.selector, fun _ => hpost.left (h.sound hfits)⟩
      · exact .inl (heq ▸ hpost.1)
  · refine ⟨ψ, ?_, fun r g' w' hadvance => ?_⟩
    · rw [Instance.events_of_finished hselector]
      exact .nil
    · cases fuel with
      | zero => exact absurd hadvance (by rw [Instance.advance_zero]; nofun)
      | succ fuel =>
        have hover : g.Over := ⟨hbuffered, hselector⟩
        cases (hover.advance_eq (Nat.succ_pos fuel) w).symm.trans hadvance
        exact ⟨hcls, fun faults' hsub _ => Idle.congr (.inr ⟨hselector, hleft⟩) rfl rfl hsub⟩

/-- **One call.** The guards follow what the machines do, and are idle again when there is an
answer. -/
theorem call (hfits : cls.Fits) (hcls : g.cls = cls) (hidle : Γ.Idle ψ faults g) (host : Host)
    (fuel : Nat) (w : World) :
    ∃ ψ', Follows Γ.Step ψ (g.events host fuel w) ψ' ∧
      ∀ c a g' w', g.reply host fuel c w = .ok (a, g') w' →
      g'.cls = cls ∧ Γ.Idle ψ' (faults ++ a.fault?.toList) g' := by
  have hsub : ∀ a : Answer, faults ⊆ faults ++ a.fault?.toList := fun _ => subset_append_left _ _
  cases hbuffered : g.buffered with
  | some =>
    have hkept : g.buffered.isSome := by rw [hbuffered]; rfl
    refine ⟨ψ, ?_, fun c a g' w' hcall => ?_⟩
    · rw [Instance.events, if_pos hkept]
      exact .nil
    · obtain ⟨hcls', hvars⟩ := Instance.same_of_reply hkept hcall
      exact ⟨hcls'.trans hcls, hidle.congr hcls' hvars (hsub a)⟩
  | none =>
    obtain ⟨ψ', hfollows, hadvance⟩ := h.advance hfits hcls hidle hbuffered host fuel w
    refine ⟨ψ', hfollows, fun c a g' w' hcall => ?_⟩
    obtain ⟨r, g₁, hrun, hcls', hvars, hfault⟩ := Instance.advance_of_reply hbuffered hcall
    obtain ⟨hcls₁, hidle₁⟩ := hadvance _ _ _ hrun
    have hidle' := hidle₁ (faults ++ a.fault?.toList) (hsub a) fun f hf =>
      mem_append_right _ (by rw [hfault f hf]; exact mem_singleton_self f)
    exact ⟨hcls'.trans hcls₁, hidle'.congr hcls' hvars (List.Subset.refl _)⟩

/-- **Many calls.** All that the machines of a generator ever do fits into the protocols of the
guards. -/
theorem session (hfits : cls.Fits) {past : List Event} (hsession : Session cls past faults g) :
    g.cls = cls ∧ ∃ ψ, Follows Γ.Step (fun _ => .idle) past ψ ∧ Γ.Idle ψ faults g := by
  induction hsession with
  | new hnew => exact ⟨(Instance.new_eq_ok hnew).1, _, .nil, .inl (h.resting_new hfits hnew)⟩
  | call hpast hcall ih =>
    obtain ⟨hcls, ψ, hfollows, hidle⟩ := ih
    obtain ⟨ψ', hevents, hanswer⟩ := h.call hfits hcls hidle _ _ _
    obtain ⟨hcls', hidle'⟩ := hanswer _ _ _ _ hcall
    exact ⟨hcls', ψ', hfollows.append hevents, hidle'⟩

end Governs

end Plan

end Lowering

/-! ## Trials -/

/-- A class with a generator that has been called some times, and with what has been seen. -/
structure Trial where
  cls : GeneratorClass
  past : List Event
  faults : List Fault
  generator : Instance
  world : World

namespace Trial

/-- The trial with some more calls. -/
def more (h : Host) (fuel : Nat) (t : Trial) : Nat → Option Trial
  | 0 => some t
  | n + 1 =>
    match t.generator.reply h fuel .next t.world with
    | .ok (a, g) w =>
      more h fuel ⟨t.cls, t.past ++ t.generator.events h fuel t.world,
        t.faults ++ a.fault?.toList, g, w⟩ n
    | .error _ _ => none

theorem session_of_more {h : Host} {fuel n : Nat} {t t' : Trial}
    (ht : Session t.cls t.past t.faults t.generator) (hmore : t.more h fuel n = some t') :
    t'.cls = t.cls ∧ Session t'.cls t'.past t'.faults t'.generator := by
  induction n generalizing t with
  | zero =>
    cases hmore
    exact ⟨rfl, ht⟩
  | succ n ih =>
    unfold more at hmore
    rcases hcall : t.generator.reply h fuel .next t.world with ⟨⟨a, g⟩, w⟩ | ⟨e, w⟩
    · rw [hcall] at hmore
      exact ih (t := ⟨t.cls, _, _, g, w⟩) (.call ht hcall) hmore
    · rw [hcall] at hmore
      cases hmore

end Trial

/-- The trial of a procedure without parameters. -/
def Procedure.trial (p : Procedure) (h : Host) (fuel calls : Nat) : Option Trial :=
  match p.lower {} with
  | .ok cls =>
    match Instance.new cls [] with
    | .ok g => Trial.more h fuel ⟨cls, [], [], g, .empty⟩ calls
    | .error _ => none
  | .error _ => none

/-- A trial that is a success is a session. -/
theorem Procedure.session_of_trial {p : Procedure} {h : Host} {fuel calls : Nat} {P : Trial → Bool}
    (htrial : (p.trial h fuel calls).any P = true) :
    ∃ t : Trial, p.lower {} = .ok t.cls ∧ Session t.cls t.past t.faults t.generator ∧
      P t = true := by
  unfold trial at htrial
  cases hlower : p.lower {} with
  | error =>
    rw [hlower] at htrial
    cases htrial
  | ok cls =>
    cases hnew : Instance.new cls [] with
    | error =>
      simp only [hlower, hnew] at htrial
      cases htrial
    | ok =>
      simp only [hlower, hnew] at htrial
      obtain ⟨t, hmore, hP⟩ := (Option.any_eq_true _ _).mp htrial
      obtain ⟨rfl, hsession⟩ := Trial.session_of_more (.new hnew) hmore
      exact ⟨t, rfl, hsession, hP⟩

open Lowering

/-- The machine is not at fault itself, and control does not pass the end of a state. -/
def Event.Orderly : Event → Prop
  | .broke _ => False
  | .passed _ _ => False
  | _ => True

theorem Lowering.Plan.Step.orderly {Γ : Plan} {ψ ψ' : Phases} {ev : Event} (h : Γ.Step ψ ev ψ') :
    ev.Orderly := by
  cases ev with
  | broke f => exact h.not_broke f rfl
  | passed selector number => exact h.not_passed selector number rfl
  | _ => exact trivial

/-- **Machines hang together, and running them never leaves their structure.** In every class that
lowering gives, machines have names and selectors of their own, states are numbered in order,
control never passes their ends, and tags stand for states of the machines where they are used. So
whatever happens around a generator, and whatever it is asked, no machine of it is ever at fault, in
any call up to now or in the next one, even if that one never comes to an end. -/
theorem Procedure.lower_hangs_together (p : Procedure) (settings : Settings) (cls : GeneratorClass)
    (hlower : p.lower settings = .ok cls) :
    cls.WellFormed ∧ (cls.Fits → ∀ past faults g, Session cls past faults g →
      ∀ host fuel w, ∀ ev ∈ past ++ g.events host fuel w, ev.Orderly) := by
  obtain ⟨Γ, h⟩ := p.lower_governed hlower
  refine ⟨h.wellFormed, fun hfits past faults g hsession host fuel w => ?_⟩
  obtain ⟨hcls, ψ, hpast, hidle⟩ := h.session hfits hsession
  obtain ⟨ψ', hnext, -⟩ := h.call hfits hcls hidle host fuel w
  exact (hpast.append hnext).forall_mem fun _ _ _ => Plan.Step.orderly

/-- A procedure that emits a value under a guard. -/
def Procedure.guardedSeven : Procedure where
  name := "seven"
  params := []
  returnType := none
  body := [.tryCatch [] [.expr (.call "step" [.int 7]) .unknown] [] (some []) .unknown]
  location := .unknown

/-- The generator of that procedure, when it has been asked for two values. -/
theorem Procedure.lower_hangs_together_seven : ∃ cls, guardedSeven.lower {} = .ok cls ∧
    cls.WellFormed ∧ cls.Fits ∧
    ∃ past faults g, Session cls past faults g ∧ past ≠ [] ∧
      ∀ ev ∈ past ++ g.events (Functions.builtins.host 0) 9 .empty, ev.Orderly := by
  have htrial : (guardedSeven.trial (Functions.builtins.host 0) 9 2).any
      (fun t => decide t.cls.Fits && !t.past.isEmpty) = true := by decide +kernel
  obtain ⟨t, hlower, hsession, hgood⟩ := session_of_trial htrial
  obtain ⟨hfits, hpast⟩ := Bool.and_eq_true_iff.mp hgood
  obtain ⟨hwellFormed, hevents⟩ := lower_hangs_together guardedSeven {} t.cls hlower
  refine ⟨t.cls, hlower, hwellFormed, of_decide_eq_true hfits, t.past, t.faults, t.generator,
    hsession, ?_,
    hevents (of_decide_eq_true hfits) _ _ _ hsession _ _ _⟩
  rintro hnil
  rw [hnil] at hpast
  cases hpast

end Resumable
