import Resumable.Execution.Functions

/-!
# The pull protocol

To ask a generator for values is to advance it, again and again.

* `Run.Returns` says what holds whenever a computation gives a result;
* `Machine.exec_returns`: a machine that ends says so in its selector, whatever class it belongs to.
  So a generator that has ended or failed has nothing more to do;
* `Advances` is the plain stream: generators advanced one after the other;
* `Instance.replies` are the answers to any sequence of calls, and `Instance.Serves` says how they
  come from the stream: values are handed out in order until an advance gives none, that call says
  why, and from then on nothing happens.
-/

namespace Resumable

open List

/-! ## What results are like -/

section Bind

variable {ε σ α β : Type} {c : EStateM ε σ α} {s s' : σ}

theorem bind_of_ok {a : α} (h : c s = .ok a s') (f : α → EStateM ε σ β) : (c >>= f) s = f a s' := by
  show EStateM.bind c f s = _
  rw [EStateM.bind, h]

theorem bind_of_error {e : ε} (h : c s = .error e s') (f : α → EStateM ε σ β) :
    (c >>= f) s = .error e s' := by
  show EStateM.bind c f s = _
  rw [EStateM.bind, h]

/-- Both parts of a run that ends well do. -/
theorem of_bind_ok {f : α → EStateM ε σ β} {b : β} (h : (c >>= f) s = .ok b s') :
    ∃ a s₁, c s = .ok a s₁ ∧ f a s₁ = .ok b s' := by
  rcases hc : c s with ⟨a, s₁⟩ | ⟨e, s₁⟩
  · exact ⟨a, s₁, rfl, (bind_of_ok hc f).symm.trans h⟩
  · cases (bind_of_error hc f).symm.trans h

end Bind

namespace Run

variable {α β : Type}

/-- Something holds of every result that the computation gives. -/
def Returns (c : Run α) (Q : α → Memory → Prop) : Prop := ∀ m a m', c m = .ok a m' → Q a m'

variable {Q : α → Memory → Prop} {m m' : Memory} {v : Value}

theorem returns_pure {a : α} (h : ∀ m, Q a m) : (pure a : Run α).Returns Q := by
  rintro m _ _ ⟨⟩
  exact h m

theorem returns_fail {f : Fault} : (fail f : Run α).Returns Q := by
  rintro m _ _ ⟨⟩

theorem Returns.mono {c : Run α} {Q' : α → Memory → Prop} (hc : c.Returns Q)
    (h : ∀ a m, Q a m → Q' a m) : c.Returns Q' :=
  fun m a m' hrun => h a m' (hc m a m' hrun)

theorem Returns.bind {c : Run α} {f : α → Run β} {Q : β → Memory → Prop}
    (h : ∀ a, (f a).Returns Q) : (c >>= f).Returns Q := by
  intro m b m' hrun
  obtain ⟨a, m₁, -, hf⟩ := of_bind_ok hrun
  exact h a m₁ b m' hf

theorem Returns.loop {step : β → Run (β ⊕ α)}
    (h : ∀ b, (step b).Returns fun r m => ∀ a, r = .inr a → Q a m) (fuel : Nat) (b : β) :
    (Run.loop step fuel b).Returns Q := by
  induction fuel generalizing b with
  | zero => rintro m a m' ⟨⟩
  | succ fuel ih =>
    intro m a m' hrun
    unfold Run.loop at hrun
    cases hstep : step b m with
    | ok r m₁ =>
      rw [hstep] at hrun
      cases r with
      | inl b' => exact ih b' m₁ a m' hrun
      | inr =>
        cases hrun
        exact h b m _ m' hstep a rfl
    | error =>
      rw [hstep] at hrun
      cases hrun

theorem Returns.repeatUntil {step : Run (Option α)}
    (h : step.Returns fun r m => ∀ a, r = some a → Q a m) (fuel : Nat) :
    (Run.repeatUntil fuel step).Returns Q := by
  refine Returns.loop (fun _ m r m' hrun a hr => ?_) fuel ()
  obtain ⟨o, m₁, hstep, hrest⟩ := of_bind_ok hrun
  cases o with
  | none =>
    cases hrest
    cases hr
  | some =>
    cases hrest
    cases hr
    exact h m _ m' hstep a rfl

theorem field_eq_ok {x : SymbolId} (h : field x m = .ok v m') :
    m.vars.get? x = some v ∧ m' = m := by
  obtain ⟨m₁, _, ⟨⟩, hrest⟩ := of_bind_ok h
  cases hget : m.vars.get? x with
  | none =>
    rw [hget] at hrest
    cases hrest
  | some =>
    rw [hget] at hrest
    cases hrest
    exact ⟨rfl, rfl⟩

theorem field_of_get? {x : SymbolId} (h : m.vars.get? x = some v) : field x m = .ok v m := by
  have hget : (get : Run Memory) m = .ok m m := rfl
  refine (bind_of_ok hget _).trans ?_
  rw [h]
  rfl

theorem asInt_eq_ok {n : Int64} (h : (liftM v.asInt : Run Int64) m = .ok n m') :
    v = .int n ∧ m' = m := by
  cases v <;> cases h
  exact ⟨rfl, rfl⟩

end Run

/-! ## The end of a machine -/

section Ends

open Run

/-- The value of a selector whose machine has ended. -/
abbrev Value.finished : Value := .ofState StateId.finished.number

/-- Ops that end their machine say so in the selector. -/
def Flow.Settled (selector : SymbolId) (flow : Flow) (m : Memory) : Prop :=
  flow = .done → m.vars.get? selector = some .finished

variable {selector : SymbolId}

/-- A guard never ends the machine in which it stands. -/
theorem Run.guardRound_returns (e : Engine) (g : GuardFields) (selector : SymbolId)
    (machine : Run (Option Value)) :
    (guardRound e g selector machine).Returns fun r _ => r ≠ some .done := by
  have hnext : ∀ {f : Flow}, f ≠ .done → (pure (some f) : Run (Option Flow)).Returns fun r _ =>
    r ≠ some .done :=
    fun hf => returns_pure fun _ heq => hf (Option.some.inj heq)
  have hhandler : ∀ failure, (enterHandler e.tags selector g failure).Returns fun r _ =>
    r ≠ some .done := by
    intro failure
    refine .bind fun _ => ?_
    split
    · exact .bind fun _ => .bind fun _ => .bind fun _ => returns_pure fun _ => nofun
    · exact .bind fun _ => hnext nofun
  refine .bind fun _ => .bind fun handling => .bind fun r => ?_
  split
  · exact hnext nofun
  · split
    · exact hnext nofun
    · refine .bind fun closed => ?_
      split
      · exact hnext nofun
      · exact hhandler _
  · refine .bind fun failure => ?_
    split
    · exact .bind fun _ => hnext nofun
    · exact .bind fun _ => hhandler failure

theorem chooseArm_returns_some (h : Host) (v : Value) {arms : List SwitchArm}
    (harms : arms.any SwitchArm.isDefault) : (chooseArm h v arms).Returns fun r _ => r ≠ none := by
  intro m r m' hrun
  obtain ⟨found, m₁, -, hrest⟩ := of_bind_ok hrun
  cases found with
  | some =>
    cases hrest
    nofun
  | none =>
    cases hrest
    obtain ⟨arm, harm, hdefault⟩ := any_eq_true.mp harms
    intro hnone
    exact find?_eq_none.mp (Option.map_eq_none_iff.mp hnone) arm harm hdefault

theorem raise_returns (h : Host) (fuel : Nat) (label : Option String) {s : Stmt} (hs : s.isRaise) :
    (s.exec h fuel label).Returns fun _ _ => False := by
  cases s with
  | raise e =>
    refine .bind fun v => ?_
    cases v with
    | exception => exact returns_fail
    | null => rintro m _ _ ⟨⟩
    | _ => exact returns_fail
  | _ => cases hs

/-- How ops end: their machine only after it is said so, and never by passing control on when they
are terminal. -/
def Flow.Ends (selector : SymbolId) (terminal : Bool) (flow : Flow) (m : Memory) : Prop :=
  flow.Settled selector m ∧ (terminal → flow ≠ .next)

theorem Flow.ends_of_ne {flow : Flow} {terminal : Bool} (hdone : flow ≠ .done)
    (hnext : terminal → flow ≠ .next) (m : Memory) : flow.Ends selector terminal m :=
  ⟨fun heq => absurd heq hdone, hnext⟩

mutual

theorem Op.exec_returns (e : Engine) (selector : SymbolId) (op : Op) :
    (op.exec e selector).Returns (Flow.Ends selector op.isTerminal) := by
  have hnext : (pure .next : Run Flow).Returns (Flow.Ends selector false) :=
    returns_pure (Flow.ends_of_ne nofun nofun)
  have hdispatch {terminal} : (pure .dispatch : Run Flow).Returns (Flow.Ends selector terminal) :=
    returns_pure (Flow.ends_of_ne nofun fun _ => nofun)
  cases op with
  | plain =>
    intro m flow m' hrun
    obtain ⟨c, m₁, hexec, hrest⟩ := of_bind_ok hrun
    cases c with
    | normal =>
      cases hrest
      exact Flow.ends_of_ne (by nofun)
        (fun hs => (raise_returns e.host e.fuel none hs m .normal m' hexec).elim) m'
    | jump => cases hrest
  | assign => exact .bind fun v => .bind fun _ => hnext
  | clear | setState => exact .bind fun _ => hnext
  | jump => exact .bind fun _ => hdispatch
  | yield => exact .bind fun v => returns_pure (Flow.ends_of_ne nofun fun _ => nofun)
  | finish =>
    rintro m _ _ ⟨⟩
    exact ⟨fun _ => (Store.get?_set ..).trans (if_pos rfl), fun _ => nofun⟩
  | cond test yes no =>
    refine .bind fun b => ?_
    cases b with
    | true =>
      exact (execOps_returns e selector yes).mono fun _ _ h =>
        ⟨h.1, fun hop => h.2 (Bool.and_eq_true_iff.mp hop).1⟩
    | false =>
      exact (execOps_returns e selector no).mono fun _ _ h =>
        ⟨h.1, fun hop => h.2 (Bool.and_eq_true_iff.mp hop).2⟩
  | switch test arms =>
    intro m flow m' hrun
    obtain ⟨v, m₁, -, hrun⟩ := of_bind_ok hrun
    obtain ⟨tag, m₂, htag, hrest⟩ := of_bind_ok hrun
    cases tag with
    | none =>
      cases hrest
      exact Flow.ends_of_ne (by nofun)
        (fun hop => absurd rfl (chooseArm_returns_some e.host v hop m₁ none m' htag)) m'
    | some => exact Returns.bind (fun _ => hdispatch) m₂ flow m' hrest
  | synchronized x body => exact .bind fun _ => execOps_returns e selector body
  | guarded machine fields =>
    obtain ⟨id, own, states⟩ := machine
    refine .repeatUntil (fun m r m' hrun flow hr => Flow.ends_of_ne ?_ (by nofun) m') e.fuel
    rintro rfl
    exact guardRound_returns e fields own _ m r m' hrun hr
  | rethrow =>
    refine .bind fun failure => ?_
    split
    · exact hnext
    · exact returns_fail

theorem execOps_returns (e : Engine) (selector : SymbolId) (ops : List Op) :
    (execOps e selector ops).Returns (Flow.Ends selector (endsTerminal ops)) := by
  match ops with
  | [] => exact returns_pure (Flow.ends_of_ne nofun nofun)
  | op :: ops =>
    intro m flow m' hrun
    obtain ⟨flow₁, m₁, hop, hrest⟩ := of_bind_ok hrun
    have hends := Op.exec_returns e selector op m flow₁ m₁ hop
    cases flow₁ with
    | next =>
      have hops := execOps_returns e selector ops m₁ flow m' hrest
      cases ops with
      | nil => exact ⟨hops.1, fun hlast => absurd rfl (hends.2 hlast)⟩
      | cons => exact hops
    | _ =>
      cases hrest
      exact ⟨hends.1, fun _ => nofun⟩

end

theorem execState_eq (e : Engine) (selector : SymbolId) (states : List MachineState) (n : Nat) :
    execState e selector states n = states[n]?.map fun | .mk _ ops => execOps e selector ops := by
  induction states generalizing n with
  | nil => rfl
  | cons state states ih =>
    obtain ⟨id, ops⟩ := state
    cases n with
    | zero => rfl
    | succ => exact ih _

theorem execState_returns {e : Engine} {states : List MachineState} {n : Nat} {body : Run Flow}
    (h : execState e selector states n = some body) : body.Returns (Flow.Settled selector) := by
  rw [execState_eq] at h
  obtain ⟨⟨id, ops⟩, -, rfl⟩ := Option.map_eq_some_iff.mp h
  exact (execOps_returns e selector ops).mono fun _ _ hends => hends.1

/-- What a round of dispatch gives when it is the last one. -/
theorem Run.enterState_returns {states : Nat → Option (Run Flow)}
    (hstates : ∀ n body, states n = some body → body.Returns (Flow.Settled selector))
    (number : Int) :
    (enterState states number).Returns fun r m => ∀ v, r = .inr v → v = none →
      m.vars.get? selector = some .finished := by
  rintro m _ m' hrun _ rfl rfl
  match number with
  | .ofNat (n + 1) =>
    simp only [enterState] at hrun
    cases hn : states n with
    | none =>
      rw [hn] at hrun
      cases hrun
    | some body =>
      rw [hn] at hrun
      obtain ⟨flow, m₁, hflow, hrest⟩ := of_bind_ok hrun
      cases flow with
      | done =>
        cases hrest
        exact hstates n body hn m .done m' hflow rfl
      | _ => cases hrest
  | .ofNat 0 => cases hrun
  | .negSucc n => cases hrun

/-- **A machine that ends says so in its selector.** -/
theorem Machine.exec_returns (e : Engine) (machine : Machine) :
    (machine.exec e).Returns fun r m => r = none →
      m.vars.get? machine.selector = some .finished := by
  obtain ⟨id, selector, states⟩ := machine
  refine .loop (fun b => ?_) e.fuel none
  have hstates : ∀ n body, execState e selector states n = some body →
      body.Returns (Flow.Settled selector) :=
    fun n body h => execState_returns h
  cases b with
  | some number => exact enterState_returns hstates number
  | none =>
    -- the machine has ended before: the selector is zero already
    rintro m _ m' hrun _ rfl rfl
    obtain ⟨w, m₁, hfield, hload⟩ := of_bind_ok hrun
    obtain ⟨hget, rfl⟩ := field_eq_ok hfield
    obtain ⟨n, m₂, hint, hrest⟩ := of_bind_ok hload
    obtain ⟨rfl, rfl⟩ := asInt_eq_ok hint
    by_cases hzero : n = 0
    · rw [if_pos hzero] at hrest
      cases hrest
      exact hget.trans (by rw [hzero]; rfl)
    · rw [if_neg hzero] at hrest
      exact enterState_returns hstates n.toInt m₂ _ m' hrest none rfl rfl

end Ends

/-! ## Generators that are over -/

namespace Instance

/-- Nothing is kept for the consumer, and the root machine has ended. -/
structure Over (g : Instance) : Prop where
  buffered : g.buffered = none
  selector : g.selector? = some .finished

variable {h : Host} {fuel : Nat} {g g' : Instance} {w w' : World}

/-- The result of a machine that an answer of a generator comes from. -/
def ranTo (v : Except Fault (Option Value)) (m : Memory) :
    EStateM.Result Halt Memory (Option Value) :=
  match v with
  | .ok v => .ok v m
  | .error f => .error (.fault f) m

/-- What an advance is made of. -/
theorem advance_eq {r : Except Fault (Option Value)}
    (hadvance : g.advance h fuel w = .ok (r, g') w') :
    ∃ vars, g.cls.advance.exec ⟨h, g.cls.tags, fuel⟩ ⟨g.vars, w⟩ = ranTo r ⟨vars, w'⟩ ∧
      g' = if r.isOk then { g with vars } else finish { g with vars } := by
  unfold advance at hadvance
  rcases hrun : g.cls.advance.exec ⟨h, g.cls.tags, fuel⟩ ⟨g.vars, w⟩ with ⟨v, m⟩ | ⟨f | _, m⟩
  all_goals
    rw [hrun] at hadvance
    cases hadvance
  · exact ⟨m.vars, rfl, rfl⟩
  · exact ⟨m.vars, rfl, rfl⟩

/-- An advance that emits nothing, or fails, is the last one. -/
theorem over_of_advance {r : Except Fault (Option Value)} (hbuffered : g.buffered = none)
    (hadvance : g.advance h fuel w = .ok (r, g') w') (hr : ∀ v, r ≠ .ok (some v)) : g'.Over := by
  obtain ⟨vars, hrun, rfl⟩ := advance_eq hadvance
  rcases r with f | (_ | v)
  · exact ⟨hbuffered, (Store.get?_set ..).trans (if_pos rfl)⟩
  · exact ⟨hbuffered, Machine.exec_returns _ _ _ _ _ hrun rfl⟩
  · exact absurd rfl (hr v)

/-- A generator that is over emits nothing, and nothing changes. -/
theorem Over.advance_eq (hover : g.Over) (hfuel : 0 < fuel) (w : World) :
    g.advance h fuel w = .ok (.ok none, g) w := by
  obtain ⟨n, rfl⟩ := Nat.exists_eq_add_of_lt hfuel
  rw [Nat.zero_add]
  obtain ⟨cls, vars, buffered⟩ := g
  have hfield : Run.field cls.advance.selector ⟨vars, w⟩ = .ok Value.finished ⟨vars, w⟩ := by
    have hget : vars.get? cls.advance.selector = some .finished := hover.selector
    exact Run.field_of_get? hget
  have hrun : cls.advance.exec ⟨h, cls.tags, n + 1⟩ ⟨vars, w⟩ = .ok none ⟨vars, w⟩ := by
    rcases hm : cls.advance with ⟨id, selector, states⟩
    rw [hm] at hfield
    replace hfield : Run.field selector ⟨vars, w⟩ = .ok Value.finished ⟨vars, w⟩ := hfield
    simp only [Machine.exec, Run.dispatch, Run.loop]
    rw [bind_of_ok hfield]
    rfl
  unfold advance
  rw [hrun]

end Instance

/-! ## The plain stream -/

/-- `Advances h g w vs g' w'`: advanced as long as it emits something, the generator `g` emits the
values `vs` from the world `w` on, and is then `g'` in the world `w'`. -/
inductive Advances (h : Host) : Instance → World → List Value → Instance → World → Prop where
  | nil {g w} : Advances h g w [] g w
  | cons {g w v g₁ w₁ vs g₂ w₂} (fuel : Nat)
    (hfirst : g.advance h fuel w = .ok (.ok (some v), g₁) w₁)
      (hrest : Advances h g₁ w₁ vs g₂ w₂) : Advances h g w (v :: vs) g₂ w₂

/-! ## Calls and answers -/

/-- What a consumer asks. -/
inductive Call where
  /-- whether there is a next value -/
  | hasNext
  /-- for the next value -/
  | next
  /-- for the next value, if there is one -/
  | next?
  deriving DecidableEq

/-- What a consumer is told. -/
inductive Answer where
  /-- whether there is a next value -/
  | more (b : Bool)
  /-- the next value -/
  | value (v : Value)
  /-- that there is no next value -/
  | nothing
  /-- what went wrong -/
  | fault (f : Fault)

namespace Answer

/-- The fault that was told. -/
def fault? : Answer → Option Fault
  | fault f => some f
  | _ => none

/-- The value that was handed out. -/
def value? : Answer → Option Value
  | value v => some v
  | _ => none

/-- The answer of a generator that goes on. -/
def Good : Answer → Prop
  | more b => b = true
  | value _ => True
  | nothing | fault _ => False

end Answer

/-- The answer when an advance has emitted nothing, or has failed. -/
def Call.closing : Call → Option Fault → Answer
  | _, some f => .fault f
  | hasNext, none => .more false
  | next, none => .fault .noSuchElement
  | next?, none => .nothing

namespace Instance

/-- Answers a call. -/
def reply (h : Host) (fuel : Nat) (g : Instance) : Call → Effect (Answer × Instance)
  | .hasNext => do
    match ← g.hasNext h fuel with
    | (.ok b, g) => return (.more b, g)
    | (.error f, g) => return (.fault f, g)
  | .next => do
    match ← g.next h fuel with
    | (.ok v, g) => return (.value v, g)
    | (.error f, g) => return (.fault f, g)
  | .next? => do
    match ← g.next? h fuel with
    | (.ok (some v), g) => return (.value v, g)
    | (.ok none, g) => return (.nothing, g)
    | (.error f, g) => return (.fault f, g)

/-- Answers calls one after the other, each with fuel of its own. -/
def replies (h : Host) (g : Instance) : List (Call × Nat) → Effect (List Answer × Instance)
  | [] => return ([], g)
  | (q, fuel) :: rest => do
    let (a, g) ← g.reply h fuel q
    let (answers, g) ← g.replies h rest
    return (a :: answers, g)

/-- The generator with nothing kept for the consumer. -/
def bare (g : Instance) : Instance := { g with buffered := none }

theorem bare_eq {g : Instance} (hbuffered : g.buffered = none) : g.bare = g := by
  obtain ⟨cls, vars, buffered⟩ := g
  cases hbuffered
  rfl

end Instance

/-- What an advance gives that emits nothing, with its fault. -/
def ending : Option Fault → Except Fault (Option Value)
  | none => .ok none
  | some f => .error f

/-- The result of a run of answers with one more answer in front. -/
def withAnswer (a : Answer) :
    EStateM.Result Halt World (List Answer × Instance) →
      EStateM.Result Halt World (List Answer × Instance)
  | .ok (answers, g) w => .ok (a :: answers, g) w
  | .error e w => .error e w

/-- How answers come from the plain stream, which emits `vs` and has come to `g` in the world `w`.
The values `kept` were emitted before. -/
inductive Serves (h : Host) (kept : List Value) (calls : List (Call × Nat)) (vs : List Value)
    (g : Instance) (w : World) : EStateM.Result Halt World (List Answer × Instance) → Prop where
  /-- what was emitted is handed out, or is the value that is kept for the next call -/
  | going {answers g'} (hgood : ∀ a ∈ answers, a.Good)
      (hvalues : answers.filterMap Answer.value? ++ g'.buffered.toList = kept ++ vs)
      (hbare : g'.bare = g) :
      Serves h kept calls vs g w (.ok (answers, g') w)
  /-- what was emitted is handed out, one call has seen the end or the fault of the next advance,
  and the calls after it see that there is nothing more, and change nothing -/
  | ended {late q fuel g' w'} (early : List (Call × Nat)) (before : List Answer)
    (fault : Option Fault)
      (hcalls : calls = early ++ (q, fuel) :: late)
      (hlength : before.length = early.length) (hgood : ∀ a ∈ before, a.Good)
      (hvalues : before.filterMap Answer.value? = kept ++ vs)
      (hlast : g.advance h fuel w = .ok (ending fault, g') w') (hover : g'.Over) :
      Serves h kept calls vs g w
        (.ok (before ++ q.closing fault :: late.map fun q => q.1.closing none, g') w')
  /-- the next advance does not get done -/
  | starved {q e w'} (hq : q ∈ calls) (hlast : g.advance h q.2 w = .error e w') :
      Serves h kept calls vs g w (.error e w')

namespace Serves

variable {h : Host} {kept kept' vs vs' : List Value} {calls : List (Call × Nat)} {g : Instance}
  {w : World}
  {r : EStateM.Result Halt World (List Answer × Instance)}

theorem cons {a : Answer} (hr : Serves h kept' calls vs' g w r) (q : Call × Nat) (hgood : a.Good)
    (hvalues : a.value?.toList ++ (kept' ++ vs') = kept ++ vs) :
    Serves h kept (q :: calls) vs g w (withAnswer a r) := by
  have htake : ∀ answers, (a :: answers).filterMap Answer.value? =
      a.value?.toList ++ answers.filterMap Answer.value? := by
    intro answers
    rw [filterMap_cons]
    cases a.value? <;> rfl
  cases hr with
  | going hgoods hrest hbare =>
    refine .going (forall_mem_cons.mpr ⟨hgood, hgoods⟩) ?_ hbare
    rw [htake, List.append_assoc, hrest, hvalues]
  | ended early before fault hcalls hlength hgoods hrest hlast hover =>
    refine .ended (q :: early) (a :: before) fault (by rw [hcalls]; rfl)
      (congrArg Nat.succ hlength) (forall_mem_cons.mpr ⟨hgood, hgoods⟩) ?_ hlast hover
    rw [htake, hrest, hvalues]
  | starved hq hlast => exact .starved (mem_cons_of_mem _ hq) hlast

end Serves

namespace Instance

variable {h : Host} {fuel : Nat} {g g' : Instance} {w w' : World}

theorem replies_cons (h : Host) (g : Instance) (q : Call) (fuel : Nat) (rest : List (Call × Nat))
    (w : World) :
    g.replies h ((q, fuel) :: rest) w = match g.reply h fuel q w with
      | .ok (a, g') w' => withAnswer a (g'.replies h rest w')
      | .error e w' => .error e w' := by
  rcases hreply : g.reply h fuel q w with ⟨⟨a, g'⟩, w'⟩ | ⟨e, w'⟩
  · refine (bind_of_ok hreply _).trans ?_
    rcases hrest : g'.replies h rest w' with ⟨⟨answers, g''⟩, w''⟩ | ⟨e, w''⟩
    · exact (bind_of_ok hrest _).trans (congrArg (withAnswer a) hrest).symm
    · exact (bind_of_error hrest _).trans (congrArg (withAnswer a) hrest).symm
  · exact bind_of_error hreply _

theorem same_of_advance {r : Except Fault (Option Value)}
    (hadvance : g.advance h fuel w = .ok (r, g') w') :
    g'.cls = g.cls ∧ g'.buffered = g.buffered := by
  obtain ⟨vars, -, rfl⟩ := advance_eq hadvance
  cases r with
  | ok | error => exact ⟨rfl, rfl⟩

/-- **While a value is kept, asking whether there is one changes nothing.** -/
theorem hasNext_of_buffered (hbuffered : g.buffered.isSome) (h : Host) (fuel : Nat) (w : World) :
    g.hasNext h fuel w = .ok (.ok true, g) w := by
  unfold Instance.hasNext
  rw [if_pos hbuffered]
  rfl

/-- With nothing kept, a call costs an advance. -/
theorem hasNext_of_bare (hbuffered : g.buffered = none) (h : Host) (fuel : Nat) (w : World) :
    g.hasNext h fuel w = match g.advance h fuel w with
      | .ok (.ok (some v), g') w' => .ok (.ok true, { g' with buffered := some v }) w'
      | .ok (.ok none, g') w' => .ok (.ok false, g') w'
      | .ok (.error f, g') w' => .ok (.error f, g') w'
      | .error e w' => .error e w' := by
  unfold Instance.hasNext
  rw [hbuffered]
  rcases hadvance : g.advance h fuel w with ⟨⟨f | (_ | v), g'⟩, w'⟩ | ⟨e, w'⟩
  · exact bind_of_ok hadvance _
  · exact bind_of_ok hadvance _
  · exact bind_of_ok hadvance _
  · exact bind_of_error hadvance _

/-- What becomes of the answer whether there is a next value when the value is taken. -/
theorem next_of_hasNext {r : Except Fault Bool} (hasNext : g.hasNext h fuel w = .ok (r, g') w') :
    g.next h fuel w = .ok (match r, g'.buffered with
      | .ok true, some v => (.ok v, g'.bare)
      | .ok true, none => (.error (.breach .bufferEmptied), g')
      | .ok false, _ => (.error .noSuchElement, g')
      | .error f, _ => (.error f, g')) w' := by
  refine (bind_of_ok hasNext _).trans ?_
  rcases r with f | (_ | _)
  · rfl
  · rfl
  · cases hbuffered : g'.buffered with
    | none | some =>
      simp only [hbuffered]
      rfl

/-- A value that is kept is taken. -/
theorem next_of_buffered {v : Value} (hbuffered : g.buffered = some v) (h : Host) (fuel : Nat)
    (w : World) : g.next h fuel w = .ok (.ok v, g.bare) w := by
  have hasNext := hasNext_of_buffered (g := g) (by rw [hbuffered]; rfl) h fuel w
  have hnext := next_of_hasNext hasNext
  rwa [hbuffered] at hnext

theorem next?_of_hasNext {v : Value} (hasNext : g.hasNext h fuel w = .ok (.ok true, g') w')
    (hnext : g'.next h fuel w' = .ok (.ok v, g'.bare) w') :
    g.next? h fuel w = .ok (.ok (some v), g'.bare) w' := by
  refine (bind_of_ok hasNext _).trans ?_
  exact bind_of_ok hnext _

theorem reply_of_buffered {v : Value} (hbuffered : g.buffered = some v) (h : Host)
    (fuel : Nat) (c : Call) (w : World) : g.reply h fuel c w = match c with
      | .hasNext => .ok (.more true, g) w
      | .next | .next? => .ok (.value v, g.bare) w := by
  have hasNext := hasNext_of_buffered (g := g) (by rw [hbuffered]; rfl) h fuel w
  have hnext := next_of_buffered hbuffered h fuel w
  cases c with
  | hasNext => exact bind_of_ok hasNext _
  | next => exact bind_of_ok hnext _
  | next? => exact bind_of_ok (next?_of_hasNext hasNext hnext) _

/-- The answer to a call that costs an advance. -/
theorem reply_of_bare (hbuffered : g.buffered = none) (h : Host) (fuel : Nat) (c : Call)
    (w : World) :
    g.reply h fuel c w = match g.advance h fuel w with
      | .ok (.ok (some v), g') w' =>
        match c with
        | .hasNext => .ok (.more true, { g' with buffered := some v }) w'
        | .next | .next? => .ok (.value v, g'.bare) w'
      | .ok (.ok none, g') w' => .ok (c.closing none, g') w'
      | .ok (.error f, g') w' => .ok (c.closing (some f), g') w'
      | .error e w' => .error e w' := by
  have hasNext := hasNext_of_bare hbuffered h fuel w
  rcases hadvance : g.advance h fuel w with ⟨⟨f | (_ | v), g'⟩, w'⟩ | ⟨e, w'⟩
  all_goals
    rw [hadvance] at hasNext
    cases c
  · exact bind_of_ok hasNext _
  · exact bind_of_ok (next_of_hasNext hasNext) _
  · have hnext : g.next? h fuel w = .ok (.error f, g') w' := bind_of_ok hasNext _
    exact bind_of_ok hnext _
  · exact bind_of_ok hasNext _
  · exact bind_of_ok (next_of_hasNext hasNext) _
  · have hnext : g.next? h fuel w = .ok (.ok none, g') w' := bind_of_ok hasNext _
    exact bind_of_ok hnext _
  · exact bind_of_ok hasNext _
  · exact bind_of_ok (next_of_hasNext hasNext) _
  · exact bind_of_ok (next?_of_hasNext hasNext (next_of_buffered rfl h fuel w')) _
  · exact bind_of_error hasNext _
  · exact bind_of_error (bind_of_error hasNext _) _
  · exact bind_of_error (bind_of_error hasNext _) _

variable {calls : List (Call × Nat)}

/-- A generator that is over says so to every call, and nothing changes. -/
theorem Over.replies_eq (hover : g.Over) (hfuel : ∀ q ∈ calls, 0 < q.2)
    (w : World) : g.replies h calls w = .ok (calls.map fun q => q.1.closing none, g) w := by
  induction calls with
  | nil => rfl
  | cons q rest ih =>
    obtain ⟨q, fuel⟩ := q
    obtain ⟨hfirst, hrest⟩ := forall_mem_cons.mp hfuel
    rw [replies_cons, reply_of_bare hover.buffered, hover.advance_eq hfirst]
    simp only [ih hrest]
    rfl

theorem new_eq_ok {cls : GeneratorClass} {args : List Value}
    (hnew : Instance.new cls args = .ok g) :
    g.cls = cls ∧ g.buffered = none ∧ g.selector? = some (.ofState StateId.start.number) := by
  unfold Instance.new at hnew
  split at hnew
  · cases hnew
  · cases hbind : Instance.bind
      (cls.captures.toList.foldl (fun vars c => vars.set c.symbol (.initial c.type))
        Store.empty) (cls.params.zip args) with
    | error f =>
      simp only [hbind] at hnew
      cases hnew
    | ok vars =>
      simp only [hbind] at hnew
      cases hnew
      exact ⟨rfl, rfl, (Store.get?_set ..).trans (if_pos rfl)⟩

/-- Answers come from the plain stream. -/
theorem replies_serves (hfuel : ∀ q ∈ calls, 0 < q.2) (g : Instance)
    (w : World) : ∃ vs g₁ w₁, Advances h g.bare w vs g₁ w₁ ∧
      Serves h g.buffered.toList calls vs g₁ w₁ (g.replies h calls w) := by
  induction calls generalizing g w with
  | nil => exact ⟨[], g.bare, w, .nil, .going nofun (by simp) rfl⟩
  | cons q rest ih =>
    obtain ⟨q, fuel⟩ := q
    obtain ⟨hfirst, hrest⟩ := forall_mem_cons.mp hfuel
    rw [replies_cons]
    cases hbuffered : g.buffered with
    | some =>
      -- the value that is kept answers the call
      rw [reply_of_buffered hbuffered]
      cases q with
      | hasNext =>
        obtain ⟨vs, g₁, w₁, hstream, hserves⟩ := ih hrest g w
        exact ⟨vs, g₁, w₁, hstream, hserves.cons _ rfl (by rw [hbuffered]; rfl)⟩
      | next | next? =>
        obtain ⟨vs, g₁, w₁, hstream, hserves⟩ := ih hrest g.bare w
        exact ⟨vs, g₁, w₁, hstream, hserves.cons _ trivial rfl⟩
    | none =>
      rw [bare_eq hbuffered, reply_of_bare hbuffered]
      rcases hadvance : g.advance h fuel w with ⟨⟨f | (_ | v), g'⟩, w'⟩ | ⟨e, w'⟩
      · have hover := over_of_advance hbuffered hadvance (by nofun)
        refine ⟨[], g, w, .nil, ?_⟩
        simp only [hover.replies_eq hrest]
        exact .ended [] [] (some f) rfl rfl nofun rfl hadvance hover
      · have hover := over_of_advance hbuffered hadvance (by nofun)
        refine ⟨[], g, w, .nil, ?_⟩
        simp only [hover.replies_eq hrest]
        exact .ended [] [] none rfl rfl nofun rfl hadvance hover
      · have hkept := (same_of_advance hadvance).2.trans hbuffered
        cases q with
        | hasNext =>
          obtain ⟨vs, g₁, w₁, hstream, hserves⟩ := ih hrest { g' with buffered := some v } w'
          have hbare : ({ g' with buffered := some v } : Instance).bare = g' := bare_eq hkept
          exact ⟨v :: vs, g₁, w₁, .cons fuel hadvance (hbare ▸ hstream), hserves.cons _ rfl rfl⟩
        | next | next? =>
          obtain ⟨vs, g₁, w₁, hstream, hserves⟩ := ih hrest g' w'
          have hbare := bare_eq hkept
          refine ⟨v :: vs, g₁, w₁, .cons fuel hadvance (hbare ▸ hstream), ?_⟩
          show Serves _ _ _ _ _ _ (withAnswer (.value v) (g'.bare.replies h rest w'))
          rw [hbare]
          exact hserves.cons _ trivial (by rw [hkept]; rfl)
      · exact ⟨[], g, w, .nil, .starved mem_cons_self hadvance⟩

/-- **The pull protocol refines the plain stream.** Whatever the class, the answers to any calls
come from the stream of advances: values are handed out in order, each once, and a call that asks in
between changes nothing while a value is kept; an end or a fault is told by one call, and all calls
after it find nothing and change nothing. -/
theorem replies_refine_advances (cls : GeneratorClass) (args : List Value) (g : Instance)
    (hnew : Instance.new cls args = .ok g) (h : Host) (w : World) (calls : List (Call × Nat))
    (hfuel : ∀ q ∈ calls, 0 < q.2) :
    (∃ vs g₁ w₁, Advances h g w vs g₁ w₁ ∧ Serves h [] calls vs g₁ w₁ (g.replies h calls w)) ∧
      ∀ answers g' w', g.replies h calls w = .ok (answers, g') w' → g'.buffered.isSome →
        ∀ fuel, g'.hasNext h fuel w' = .ok (.ok true, g') w' := by
  have hbuffered := (new_eq_ok hnew).2.1
  obtain ⟨vs, g₁, w₁, hstream, hserves⟩ := replies_serves (h := h) hfuel g w
  rw [bare_eq hbuffered] at hstream
  rw [hbuffered] at hserves
  exact ⟨⟨vs, g₁, w₁, hstream, hserves⟩,
    fun _ g' w' _ hkept fuel => hasNext_of_buffered hkept h fuel w'⟩

/-- A class whose generators emit one value. -/
def emitsSeven : GeneratorClass where
  name := "seven$Generator"
  procedure := "seven"
  elementType := .int
  params := []
  captures := .empty
  advance := .mk .root ⟨0⟩ [.mk ⟨1⟩ [.setState ⟨1⟩, .yield (.int 7)], .mk ⟨2⟩ [.finish]]
  tags := ⟨#[⟨.root, some .finished⟩, ⟨.root, some ⟨2⟩⟩]⟩
  symbols := .empty

/-- A value that is asked for twice, taken once, and asked for once more. -/
theorem replies_refine_advances_seven : ∃ g, Instance.new emitsSeven [] = .ok g ∧
    (∃ vs g₁ w₁, Advances (Functions.builtins.host 0) g .empty vs g₁ w₁ ∧
      Serves (Functions.builtins.host 0) [] [(.hasNext, 3), (.hasNext, 1), (.next, 2),
        (.next, 2)] vs g₁ w₁
        (g.replies (Functions.builtins.host 0) [(.hasNext, 3), (.hasNext, 1), (.next, 2),
          (.next, 2)] .empty)) ∧
    ∃ g', g.replies (Functions.builtins.host 0) [(.hasNext, 3), (.hasNext, 1), (.next, 2),
      (.next, 2)] .empty =
      .ok ([.more true, .more true, .value (.int 7), .fault .noSuchElement], g') .empty :=
  ⟨_, rfl, (replies_refine_advances emitsSeven [] _ rfl (Functions.builtins.host 0) .empty
    [(.hasNext, 3), (.hasNext, 1), (.next, 2), (.next, 2)] (by decide)).1, _, rfl⟩

end Instance

end Resumable
