import Resumable.Proofs.Built

/-!
# Machines without drops

References are dropped where their scopes end, or not at all, as the settings say. This file shows
that the setting decides nothing else.

* `Machine.bare` is a machine without the ops that drop references, at any depth, and
  `GeneratorClass.bare` a class with such a machine whose fields are all retained;
* a drop is only added where control arrives, so that code with drops and code without end in the
  same way: `EndsAlike` is this fact about ops, and `Code.Fair` about code;
* `Twins` says that a sketch, made without drops, fails with the same error or gives the bare form
  of the same code. There is one rule for each construct.
-/

namespace Resumable

open List

open Lowering (Part endsTerminal_append)

/-! ## Ops without drops -/

/-- Whether the op drops a reference. -/
def Op.isClear : Op → Bool
  | .clear _ => true
  | _ => false

mutual

/-- The op with no drops inside it. -/
def Op.bare : Op → Op
  | .cond test yes no => .cond test (bareOps yes) (bareOps no)
  | .synchronized lock body => .synchronized lock (bareOps body)
  | .guarded machine fields => .guarded machine.bare fields
  | .plain s => .plain s
  | .assign x e => .assign x e
  | .clear x => .clear x
  | .setState tag => .setState tag
  | .jump tag => .jump tag
  | .yield e => .yield e
  | .finish => .finish
  | .switch selector arms => .switch selector arms
  | .rethrow x => .rethrow x

/-- The ops that drop no reference, with no drops inside them. -/
def bareOps : List Op → List Op
  | [] => []
  | op :: ops => if op.isClear then bareOps ops else op.bare :: bareOps ops

/-- States without drops. -/
def bareStates : List MachineState → List MachineState
  | [] => []
  | .mk id ops :: states => .mk id (bareOps ops) :: bareStates states

/-- The machine without drops. -/
def Machine.bare : Machine → Machine
  | .mk id selector states => .mk id selector (bareStates states)

end

/-- The field, kept for as long as the generator lives. -/
def Capture.retained (c : Capture) : Capture := { c with liveness := .retained }

/-- The fields, all kept for as long as the generator lives. -/
def CaptureSet.retained (s : CaptureSet) : CaptureSet :=
  ⟨s.fields.map fun (x, c) => (x, c.retained)⟩

/-- The class without drops, whose fields are all kept. -/
def GeneratorClass.bare (c : GeneratorClass) : GeneratorClass :=
  { c with captures := c.captures.retained, advance := c.advance.bare }

theorem bareOps_append (a b : List Op) : bareOps (a ++ b) = bareOps a ++ bareOps b := by
  induction a with
  | nil => rfl
  | cons op a ih =>
    rw [cons_append, bareOps, bareOps]
    split
    · exact ih
    · rw [ih, cons_append]

/-- Ops that are no drops, and hold none, stay as they are. -/
theorem bareOps_map {α : Type} {f : α → Op} (h : ∀ a, bareOps [f a] = [f a]) (as : List α) :
    bareOps (as.map f) = as.map f := by
  induction as with
  | nil => rfl
  | cons a as ih => rw [map_cons, ← singleton_append, bareOps_append, h, ih]

/-- Of drops nothing is left. -/
theorem bareOps_clears (xs : List SymbolId) : bareOps (xs.map Op.clear) = [] := by
  induction xs with
  | nil => rfl
  | cons x xs ih => exact ih

/-- A new field is kept like the others. -/
theorem CaptureSet.retained_insert (s : CaptureSet) (c : Capture) :
    (s.insert c).retained = s.retained.insert c.retained := by
  have hentry : ∀ fields : List (SymbolId × Capture),
      (insertEntry c.symbol c fields).map (fun (x, c) => (x, c.retained)) =
        insertEntry c.symbol c.retained (fields.map fun (x, c) => (x, c.retained)) := by
    intro fields
    induction fields with
    | nil => rfl
    | cons entry fields ih =>
      obtain ⟨x, d⟩ := entry
      rw [insertEntry, map_cons, insertEntry]
      split
      · rfl
      · split
        · rfl
        · rw [map_cons, ih]
  exact congrArg CaptureSet.mk (hentry s.fields)

/-- The same variables are fields. -/
theorem CaptureSet.contains_retained (s : CaptureSet) (x : SymbolId) :
    s.retained.contains x = s.contains x := by
  have hlookup : ∀ fields : List (SymbolId × Capture),
      (fields.map fun (y, c) => (y, c.retained)).lookup x =
      (fields.lookup x).map Capture.retained := by
    intro fields
    induction fields with
    | nil => rfl
    | cons entry fields ih =>
      obtain ⟨y, d⟩ := entry
      rw [map_cons, lookup_cons, lookup_cons]
      split
      · rfl
      · exact ih
  rw [contains, contains, get?, get?, retained, hlookup, Option.isSome_map]

/-! ## Where control ends -/

/-- Without drops, control passes the ops, or does not, as with them. -/
def EndsAlike (ops : List Op) : Prop := endsTerminal (bareOps ops) = endsTerminal ops

theorem endsAlike_nil : EndsAlike [] := rfl

/-- Without the drops inside it, control passes the op, or does not, as with them; and the op is no
drop. -/
structure Op.EndsAlike (op : Op) : Prop where
  kept : op.isClear = false
  terminal : op.bare.isTerminal = op.isTerminal

theorem bareOps_singleton {op : Op} (h : op.isClear = false) : bareOps [op] = [op.bare] := by
  rw [bareOps, h]
  rfl

/-- What stands in front of an op that is no drop does not matter. -/
theorem endsAlike_snoc {op : Op} (h : op.EndsAlike) (ops : List Op) : EndsAlike (ops ++ [op]) := by
  rw [EndsAlike, bareOps_append, bareOps_singleton h.kept, endsTerminal_append (cons_ne_nil _ _),
    endsTerminal_append (cons_ne_nil _ _)]
  exact h.terminal

theorem endsTerminal_snoc_clear (ops : List Op) (x : SymbolId) :
    endsTerminal (ops ++ [.clear x]) = false := by
  rw [endsTerminal_append (cons_ne_nil _ _)]
  rfl

/-- Drops may be added where control arrives. -/
theorem EndsAlike.clears {ops : List Op} (h : EndsAlike ops) (hlive : endsTerminal ops = false)
    (xs : List SymbolId) : EndsAlike (ops ++ xs.map Op.clear) := by
  have hterminal : endsTerminal (ops ++ xs.map Op.clear) = false := by
    rcases eq_nil_or_concat xs with rfl | ⟨init, x, rfl⟩
    · rwa [map_nil, List.append_nil]
    · rw [concat_eq_append, map_append, ← List.append_assoc]
      exact endsTerminal_snoc_clear _ x
  rw [EndsAlike, hterminal, bareOps_append, bareOps_clears, List.append_nil]
  exact Eq.trans h hlive

theorem endsAlike_jump (tag : Tag) : (Op.jump tag).EndsAlike := ⟨rfl, rfl⟩

theorem endsAlike_finish : Op.finish.EndsAlike := ⟨rfl, rfl⟩

theorem endsAlike_yield (e : Expr) : (Op.yield e).EndsAlike := ⟨rfl, rfl⟩

theorem endsAlike_assign (x : SymbolId) (e : Expr) : (Op.assign x e).EndsAlike := ⟨rfl, rfl⟩

/-- A choice ends as its branches do. -/
theorem endsAlike_cond (test : Expr) {yes no : List Op} (hyes : EndsAlike yes)
    (hno : EndsAlike no) : (Op.cond test yes no).EndsAlike := by
  refine ⟨rfl, ?_⟩
  rw [Op.bare, Op.isTerminal, Op.isTerminal, hyes, hno]

theorem endsAlike_synchronized (lock : Expr) {body : List Op} (h : EndsAlike body) :
    (Op.synchronized lock body).EndsAlike := by
  refine ⟨rfl, ?_⟩
  rw [Op.bare, Op.isTerminal, Op.isTerminal, h]

namespace Lowering

open Ledger Code

/-! ## Code and ledgers without drops -/

/-- The code without drops. -/
def Code.bare (c : Code) : Code := ⟨bareOps c.ops, c.states.map bareOps⟩

/-- The ledger without drops: scopes list no fields. -/
def Ledger.bare (L : Ledger) : Ledger :=
  { L with captures := L.captures.retained, scopes := L.scopes.map fun _ => [] }

/-- The context in which no references are dropped. -/
def Context.bare (ctx : Context) : Context :=
  { ctx with settings := { ctx.settings with clearReferences := false } }

theorem bareOps_jump (tag : Tag) : bareOps [.jump tag] = [.jump tag] := rfl

theorem bareOps_finish : bareOps [.finish] = [.finish] := rfl

namespace Code

variable {cur : List Op}

@[simp] theorem bare_now (ops : List Op) : (now ops).bare = now (bareOps ops) := rfl

@[simp] theorem bare_opened : opened.bare = opened := rfl

@[simp] theorem bare_append (a b : Code) : (a ++ b).bare = a.bare ++ b.bare := by
  obtain ⟨ops, ss⟩ := a
  induction ss generalizing ops with
  | nil => simp [bare, bareOps_append]
  | cons s ss ih =>
    have hrest := Code.mk.inj (ih s)
    simp only [mk_cons_append, bare, map_cons, Code.mk.injEq, true_and, List.cons.injEq]
    exact hrest

/-- Code without drops stops where the code does. -/
@[simp] theorem stop_bare (c : Code) (cur : List Op) :
    c.bare.stop (bareOps cur) = bareOps (c.stop cur) := by
  obtain ⟨ops, ss⟩ := c
  induction ss generalizing cur ops with
  | nil => simp [bare, bareOps_append]
  | cons s ss ih => exact ih [] s

/-- The machine of code without drops is that of the code, without drops. -/
theorem machine_bare (c : Code) (id : MachineId) (selector : SymbolId) :
    (c.machine id selector).bare = c.bare.machine id selector := by
  have hstates : ∀ (states : List (List Op)) (n : Nat),
      bareStates (numbered n states) = numbered n (states.map bareOps) := by
    intro states
    induction states with
    | nil => exact fun _ => rfl
    | cons ops states ih =>
      intro n
      rw [numbered, bareStates, ih, map_cons, numbered]
  exact congrArg (Machine.mk id selector) (hstates (c.ops :: c.states) 1)

/-- Without drops, control ends where the code starts, behind the ops `cur`, and where it stops as
with them. -/
structure Fair (cur : List Op) (c : Code) : Prop where
  start : EndsAlike (cur ++ c.ops)
  stop : EndsAlike (c.stop cur)

theorem fair_now {ops : List Op} (h : EndsAlike (cur ++ ops)) : Fair cur (now ops) := ⟨h, h⟩

theorem fair_here (h : EndsAlike cur) : Fair cur (now []) :=
  fair_now ((List.append_nil cur).symm ▸ h)

theorem fair_opened (h : EndsAlike cur) : Fair cur opened :=
  ⟨(List.append_nil cur).symm ▸ h, endsAlike_nil⟩

/-- Code goes on in a new state, whatever the states in front of it. -/
theorem fair_states (h : EndsAlike cur) (states : List (List Op)) :
    Fair cur ⟨[], states ++ [[]]⟩ := by
  refine ⟨(List.append_nil cur).symm ▸ h, ?_⟩
  have hlast : ∀ ops, lastOf ops (states ++ [[]]) = [] := by
    induction states with
    | nil => exact fun _ => rfl
    | cons s states ih => exact fun _ => ih s
  rw [stop, hlast]
  exact endsAlike_nil

namespace Fair

variable {cur : List Op} {a b c : Code}

/-- Code behind code. -/
theorem append (ha : Fair cur a) (hb : Fair (a.stop cur) b) : Fair cur (a ++ b) := by
  obtain ⟨ops, ss⟩ := a
  refine ⟨?_, (stop_append cur _ b).symm ▸ hb.stop⟩
  cases ss with
  | nil => exact List.append_assoc cur ops b.ops ▸ hb.start
  | cons => exact ha.start

theorem appendState (ha : Fair cur a) (hb : Fair [] b) : Fair cur (a ++ opened ++ b) :=
  (ha.append (fair_opened ha.stop)).append (by rw [stop_append, stop_opened]; exact hb)

theorem appendOp {op : Op} (h : Fair cur c) (hop : op.EndsAlike) : Fair cur (c ++ now [op]) :=
  h.append (fair_now (endsAlike_snoc hop _))

end Fair

theorem sealing_bare {op : Op} (hcur : EndsAlike cur) (hop : bareOps [op] = [op]) :
    sealing (bareOps cur) op = bareOps (sealing cur op) := by
  unfold sealing
  rw [hcur]
  split
  · rfl
  · exact hop.symm

/-- Code that ends alike is ended with the same op, or not at all, as without drops. -/
theorem sealed_bare {c : Code} {op : Op} (h : c.Fair cur) (hop : bareOps [op] = [op]) :
    (c.sealed cur op).bare = c.bare.sealed (bareOps cur) op := by
  rw [sealed, sealed, bare_append, stop_bare, sealing_bare h.stop hop, bare_now]

theorem Fair.sealed {c : Code} {op : Op} (h : c.Fair cur) (hop : op.EndsAlike) :
    (c.sealed cur op).Fair cur := by
  unfold Code.sealed sealing
  split
  · rwa [append_nil]
  · exact h.appendOp hop

end Code

section Ledgers

variable {L : Ledger} {ctx : Context}

/-- Where no references are dropped, every field is kept. -/
theorem livenessOf_bare (ctx : Context) (type : TypeRef) :
    livenessOf ctx.bare type = .retained := by
  unfold livenessOf
  rw [if_pos]
  show (type.isPrimitive || !false) = true
  rw [Bool.not_false, Bool.or_true]

namespace Ledger

variable (L : Ledger)

@[simp] theorem bare_reserve (n : Nat) : (L.reserve n).bare = L.bare.reserve n := rfl

@[simp] theorem bare_popScope : L.popScope.bare = L.bare.popScope := by
  simp [bare, popScope, map_tail]

@[simp] theorem bare_nest (id : MachineId) (g : GuardNames) :
    (L.nest id g).bare = L.bare.nest id g := by
  simp [bare, nest]

@[simp] theorem bare_newSymbol (name : String) (type : TypeRef) :
    (L.newSymbol name type).bare = L.bare.newSymbol name type := rfl

theorem bare_capture (x : SymbolId) (type : TypeRef) (origin : CaptureOrigin)
    (liveness : Liveness) :
    (L.capture x type origin liveness).bare = L.bare.capture x type origin .retained :=
  congrArg (fun captures => { L.bare with captures := captures }) (CaptureSet.retained_insert _ _)

@[simp] theorem bare_newField (ctx : Context) (name : String) (type : TypeRef)
    (origin : CaptureOrigin) :
    (L.newField ctx name type origin).bare = L.bare.newField ctx.bare name type origin := by
  rw [newField, newField, bare_capture, livenessOf_bare]
  rfl

/-- No scope lists the field where no references are dropped. -/
@[simp] theorem bare_dropIfCleared (ctx : Context) (x : SymbolId) (type : TypeRef) :
    (L.dropIfCleared ctx x type).bare = L.bare.dropIfCleared ctx.bare x type := by
  have hdrop : (L.dropAtScopeEnd x).bare = L.bare := by
    unfold dropAtScopeEnd
    split
    · next scope scopes hscopes => simp [bare, hscopes]
    · rfl
  have hbare : L.bare.dropIfCleared ctx.bare x type = L.bare :=
    if_neg (by rw [livenessOf_bare]; decide)
  rw [hbare, dropIfCleared]
  split
  · exact hdrop
  · rfl

@[simp] theorem bare_captureLocal (ctx : Context) (x : SymbolId) (type : TypeRef) :
    (L.captureLocal ctx x type).bare = L.bare.captureLocal ctx.bare x type := by
  rw [captureLocal, captureLocal, bare_dropIfCleared, bare_capture, livenessOf_bare]

theorem bare_captureResources (resources : List (SymbolId × TypeRef)) :
    (L.captureResources resources).bare = L.bare.captureResources resources := by
  induction resources generalizing L with
  | nil => rfl
  | cons x resources ih => rw [captureResources, captureResources, ih, bare_capture]

@[simp] theorem bare_declareGuard (ctx : Context) (resources : List (SymbolId × TypeRef)) :
    (L.declareGuard ctx resources).bare = L.bare.declareGuard ctx.bare resources := by
  unfold declareGuard
  simp only [bare_captureResources, bare_newField, bare_capture, bare_newSymbol]
  rfl

theorem bare_captureParams (params : List (SymbolId × TypeRef)) :
    (L.captureParams params).bare = L.bare.captureParams params := by
  induction params generalizing L with
  | nil => rfl
  | cons x params ih => rw [captureParams, captureParams, ih, bare_capture]

@[simp] theorem tagAt_bare (i : Nat) : L.bare.tagAt i = L.tagAt i := rfl

@[simp] theorem length_scopes_bare : L.bare.scopes.length = L.scopes.length := length_map ..

/-- A transfer drops nothing on its way out of scopes. -/
theorem exitClears_bare (ctx : Context) (tag : Tag) : L.bare.exitClears ctx.bare tag = [] := by
  have hflat : ∀ (scopes : List (List SymbolId)) (n : Nat),
      ((scopes.map fun _ => ([] : List SymbolId)).take n).flatten = [] := by
    intro scopes n
    rw [← map_take, flatten_eq_nil_iff]
    exact forall_mem_map.mpr fun _ _ => rfl
  exact congrArg (List.map Op.clear) (hflat ..)

end Ledger

end Ledgers

/-! ## Computations and their twins -/

/-- Done without drops, the second computation does what the first one does: it fails in the same
way, or its result is the image of that of the first one, of which `Q` holds. -/
def Twin {α β : Type} (f : α → β) (Q : α → Prop) (x : Except LoweringError α)
    (y : Except LoweringError β) : Prop :=
  match x with
  | .ok a => y = .ok (f a) ∧ Q a
  | .error e => y = .error e

section Computations

variable {α β γ δ : Type} {f : α → β} {Q : α → Prop} {g : γ → δ} {R : γ → Prop}
  {x : Except LoweringError α}
  {y : Except LoweringError β}

theorem twin_ok {a : α} {b : β} (hb : b = f a) (hQ : Q a) : Twin f Q (.ok a) (.ok b) :=
  ⟨congrArg _ hb, hQ⟩

/-- Computations go on alike from results that correspond. -/
theorem Twin.bind {k : α → Except LoweringError γ} {l : β → Except LoweringError δ}
    (h : Twin f Q x y) (hk : ∀ a, Q a → Twin g R (k a) (l (f a))) :
    Twin g R (x >>= k) (y >>= l) := by
  cases x with
  | error e =>
    cases (h : y = .error e)
    exact rfl
  | ok a =>
    obtain ⟨rfl, hQ⟩ := h
    exact hk a hQ

/-- A computation that does not depend on drops. -/
theorem twin_same (x : Except LoweringError α) : Twin (fun a => a) (fun _ => True) x x := by
  cases x with
  | error => exact rfl
  | ok => exact ⟨rfl, trivial⟩

theorem check_twin (ctx : Context) (loc : Location) (e : Expr) :
    Twin (fun a => a) (fun _ => True) (Sketch.check ctx loc e) (Sketch.check ctx.bare loc e) :=
  twin_same _

theorem checkAll_twin (ctx : Context) (loc : Location) (es : List Expr) :
    Twin (fun a => a) (fun _ => True) (Sketch.checkAll ctx loc es)
      (Sketch.checkAll ctx.bare loc es) := by
  induction es with
  | nil => exact twin_ok rfl trivial
  | cons e es ih => exact (check_twin ctx loc e).bind fun _ _ => ih

/-- A tag gets the same state. -/
theorem enter_twin (L : Ledger) (tag : Tag) :
    Twin Ledger.bare (fun _ => True) (L.enter tag) (L.bare.enter tag) :=
  (twin_same (L.tags.resolve tag ⟨L.size + 1⟩)).bind fun _ _ => twin_ok rfl trivial

theorem enterAll_twin (L : Ledger) (tags : List Tag) :
    Twin Ledger.bare (fun _ => True) (L.enterAll tags) (L.bare.enterAll tags) := by
  induction tags generalizing L with
  | nil => exact twin_ok rfl trivial
  | cons tag tags ih => exact (enter_twin L tag).bind fun L₁ _ => ih L₁

/-- Transfers end alike, whatever stands in front of them. -/
theorem route_twin (L : Ledger) (ctx : Context) (tag : Tag) :
    Twin (fun r => (bareOps r.1, r.2.bare)) (fun r => ∀ before, EndsAlike (before ++ r.1))
      (L.route ctx tag)
      (L.bare.route ctx.bare tag) := by
  have hbare : ∀ ops : List Op, bareOps (L.exitClears ctx tag ++ ops) = bareOps ops := fun ops => by
    rw [bareOps_append, Ledger.exitClears, bareOps_clears, nil_append]
  unfold Ledger.route
  rw [exitClears_bare]
  by_cases howner : L.tags.owner tag = L.machine
  · rw [if_pos howner, if_pos (show L.bare.tags.owner tag = L.bare.machine from howner)]
    refine twin_ok ?_ fun before => ?_
    · rw [hbare]
      split <;> rfl
    · dsimp only
      rw [← List.append_assoc]
      refine endsAlike_snoc ?_ _
      split
      · exact endsAlike_finish
      · exact endsAlike_jump tag
  · rw [if_neg howner, if_neg (show ¬ L.bare.tags.owner tag = L.bare.machine from howner),
      show L.bare.pendingJump = L.pendingJump from rfl]
    cases hfield : L.pendingJump with
    | none => exact rfl
    | some =>
      refine twin_ok ?_ fun before => ?_
      · rw [hbare]
        exact Prod.ext rfl (by simp [Ledger.bare, hfield])
      · dsimp only
        rw [append_cons (L.exitClears ctx tag), ← List.append_assoc]
        exact endsAlike_snoc endsAlike_finish _

/-- What goes to one of several tags falls through to what stands behind it. -/
theorem routeAll_twin (L : Ledger) (ctx : Context) (field : SymbolId) (exits : List Tag) :
    Twin (fun r => (bareOps r.1, r.2.bare)) (fun r => ∀ before,
      EndsAlike before → EndsAlike (before ++ r.1))
      (L.routeAll ctx field exits) (L.bare.routeAll ctx.bare field exits) := by
  induction exits generalizing L with
  | nil => exact twin_ok rfl fun before h => (List.append_nil before).symm ▸ h
  | cons tag exits ih =>
    refine (route_twin L ctx tag).bind fun r hr => (ih r.2).bind fun q hq =>
      twin_ok rfl fun before _ => ?_
    rw [append_cons]
    exact hq _ (endsAlike_snoc (endsAlike_cond _ (hr []) endsAlike_nil) before)

/-- Failures and transfers are passed on where control reaches the end, which it does alike. -/
theorem settleOps_twin (L : Ledger) (ctx : Context) {cur : List Op} (hcur : EndsAlike cur)
    (g : Ledger.GuardNames) (exits : List Tag) :
    Twin (fun r => (bareOps r.1, r.2.bare)) (fun r => EndsAlike (cur ++ r.1))
      (settleOps L ctx cur g exits)
      (settleOps L.bare ctx.bare (bareOps cur) g exits) := by
  unfold settleOps
  rw [hcur]
  split
  · exact twin_ok rfl ((List.append_nil cur).symm ▸ hcur)
  · refine (routeAll_twin L ctx g.pendingJump exits).bind fun r hr => twin_ok rfl ?_
    rw [append_cons]
    exact hr _ (endsAlike_snoc ⟨rfl, rfl⟩ cur)

end Computations

/-! ## Constructs -/

/-- The sketch, made without drops, is the bare form of the other one. -/
def Twins (p q : Sketch) : Prop := ∀ ⦃cur : List Op⦄, EndsAlike cur → ∀ L : Ledger,
  Twin (fun r => (r.1.bare, r.2.bare)) (fun r => r.1.Fair cur) (p cur L) (q (bareOps cur) L.bare)

/-- In every context, the sketch has its bare form in the context without drops. -/
def Spare (p : Context → Sketch) : Prop := ∀ ctx, Twins (p ctx) (p ctx.bare)

section Constructs

variable {body : Context → Sketch} {catches : List (CatchClause × (Context → Sketch))}
  {label : Option String}
variable {ctx : Context} {loc : Location}

/-- The end of a scope is where drops are added, and only if control reaches it. -/
theorem scope_twins {p q : Sketch} (h : Twins p q) : Twins (Sketch.scope p) (Sketch.scope q) := by
  intro cur hcur L
  refine (h hcur L.pushScope).bind fun r hr => ?_
  obtain ⟨code, L'⟩ := r
  have hscope : (L'.bare.scopes.headD []).map Op.clear = [] := by
    show ((L'.scopes.map fun _ => ([] : List SymbolId)).headD []).map Op.clear = []
    cases L'.scopes <;> rfl
  dsimp only
  -- control reaches the end of both or of neither
  rw [hscope, stop_bare, hr.stop]
  refine twin_ok ?_ (hr.append (fair_now ?_))
  · rw [bare_append, bare_now, bare_popScope]
    split
    · rfl
    · rw [bareOps_clears]
  · split
    · exact (List.append_nil _).symm ▸ hr.stop
    · next hlive => exact hr.stop.clears (by simpa using hlive) _

/-- A sketch behind another one. -/
theorem andThen_twins {p p' q q' : Sketch} (hp : Twins p p') (hq : Twins q q') :
    Twins (p.andThen q) (p'.andThen q') := by
  intro cur hcur L
  refine (hp hcur L).bind fun r hr => ?_
  dsimp only
  rw [stop_bare]
  exact (hq hr.stop r.2).bind fun t ht => twin_ok (by rw [bare_append]) (hr.append ht)

theorem unlessPlain_spare {st : Stmt} {p : Context → Sketch} (h : Spare p) :
    Spare (Sketch.unlessPlain st p) := by
  intro ctx cur hcur L
  unfold Sketch.unlessPlain
  show Twin _ _ _ (if st.needsLowering ctx.markers then _ else _)
  split
  · exact h ctx hcur L
  · exact twin_ok rfl (fair_now (endsAlike_snoc ⟨rfl, rfl⟩ cur))

theorem declare_spare (d : LocalDecl) : Spare (Sketch.declare d loc) := by
  intro ctx cur hcur L
  refine (twin_same (Sketch.symbolOf d.name)).bind fun x _ =>
    (checkAll_twin ctx loc _).bind fun _ _ => ?_
  refine twin_ok ?_ (fair_now ?_)
  · rw [bare_now, bareOps_map fun _ => rfl, bare_captureLocal]
  · cases d.init with
    | none => exact (List.append_nil cur).symm ▸ hcur
    | some e => exact endsAlike_snoc (endsAlike_assign x e) cur

theorem yield_twins (arg : Expr) : Twins (Sketch.yield arg) (Sketch.yield arg) := by
  intro cur hcur L
  refine (enter_twin (L.reserve 1) (L.tagAt 0)).bind fun L' _ => twin_ok rfl ?_
  have hyield := endsAlike_snoc (endsAlike_yield arg) (cur ++ [.setState (L.tagAt 0)])
  rw [List.append_assoc] at hyield
  exact (fair_now hyield).append (fair_opened hyield)

/-- The handle of a delegate is kept. -/
theorem pollOps_bare (ctx : Context) (x : Ident) (handle : SymbolId) :
    bareOps (Sketch.pollOps ctx x handle) = Sketch.pollOps ctx.bare x handle := by
  have hbare : ¬ livenessOf ctx.bare (TypeRef.iteratorOf ctx.bare.elementType) =
      .clearedAtScopeEnd := by
    rw [livenessOf_bare]
    decide
  rw [Sketch.pollOps, Sketch.pollOps, if_neg hbare]
  split <;> rfl

theorem pollOps_alike (ctx : Context) (x : Ident) (handle : SymbolId) :
    EndsAlike (Sketch.pollOps ctx x handle) := by
  unfold Sketch.pollOps
  split
  · exact EndsAlike.clears
      (endsAlike_snoc (endsAlike_cond _ (endsAlike_snoc (endsAlike_yield _) []) endsAlike_nil) [])
      rfl [handle]
  · exact endsAlike_snoc (endsAlike_cond _ (endsAlike_snoc (endsAlike_yield _) []) endsAlike_nil) []

theorem yieldAll_spare (arg : Expr) : Spare (Sketch.yieldAll arg) := by
  intro ctx cur hcur L
  have hfield := L.bare_newField ctx "delegate" (TypeRef.iteratorOf ctx.elementType) .synthetic
  have htwin := enter_twin
      ((L.newField ctx "delegate" (TypeRef.iteratorOf ctx.elementType) .synthetic).reserve 1)
    (L.tagAt 0)
  rw [bare_reserve, hfield] at htwin
  refine htwin.bind fun L' _ => twin_ok ?_ ?_
  · simp only [bare_append, bare_now, bare_opened, pollOps_bare]
    rfl
  · have hjump := endsAlike_snoc (endsAlike_jump (L.tagAt 0)) (cur ++ [.assign L.nextSymbol arg])
    rw [List.append_assoc] at hjump
    exact ((fair_now hjump).append (fair_opened hjump)).append (fair_now (pollOps_alike ctx _ _))

theorem misplaced_spare (e : Expr) : Spare (Sketch.misplaced e loc) := fun ctx _ _ _ =>
  (check_twin ctx loc e).bind fun _ _ => rfl

theorem expr_spare (e : Expr) : Spare (Sketch.expr e loc) := by
  intro ctx cur hcur L
  unfold Sketch.expr
  rw [show ctx.bare.markers = ctx.markers from rfl]
  cases e.asMarker? ctx.markers with
  | none => exact unlessPlain_spare (misplaced_spare e) ctx hcur L
  | some marker =>
    obtain ⟨kind, arg⟩ := marker
    refine (check_twin ctx loc arg).bind fun _ _ => ?_
    cases kind with
    | emit => exact yield_twins arg hcur L
    | emitAll => exact yieldAll_spare arg ctx hcur L

theorem route_spare (tag : Tag) : Spare fun ctx => Sketch.route ctx tag := fun ctx cur _ L =>
  (route_twin L ctx tag).bind fun _ hr => twin_ok rfl (fair_now (hr cur))

theorem ret_spare (value : Option Expr) : Spare (Sketch.ret value loc) := by
  intro ctx cur hcur L
  cases value with
  | none => exact route_spare .finished ctx hcur L
  | some => exact rfl

theorem brk_spare (label : Option String) : Spare (Sketch.brk label loc) := fun ctx _ hcur L =>
  (twin_same (Sketch.need (ctx.breakTag? label) (.unmatchedBreak label loc))).bind fun tag _ =>
    route_spare tag ctx hcur L

theorem cont_spare (label : Option String) : Spare (Sketch.cont label loc) := fun ctx _ hcur L =>
  (twin_same (Sketch.need (ctx.continueTag? label) (.unmatchedContinue label loc))).bind
    fun tag _ =>
    route_spare tag ctx hcur L

theorem branch_spare {p : Option (Context → Sketch)} (h : ∀ q ∈ p, Spare q) :
    Spare (Sketch.branch p) := by
  intro ctx cur hcur L
  cases p with
  | none => exact twin_ok rfl (fair_here hcur)
  | some p => exact scope_twins (h p rfl ctx) hcur L

/-- Both branches stay in the state, or neither does, as without drops. -/
theorem cond_spare {test : Expr} {yes : Context → Sketch} {no : Option (Context → Sketch)}
    (hyes : Spare yes) (hno : ∀ q ∈ no, Spare q) : Spare (Sketch.cond test loc yes no) := by
  intro ctx cur hcur L
  refine (check_twin ctx loc test).bind fun _ _ => ?_
  refine (scope_twins (hyes ctx) endsAlike_nil L).bind fun y hy => ?_
  refine (branch_spare hno ctx endsAlike_nil y.2).bind fun n hn => ?_
  obtain ⟨yesCode, L₁⟩ := y
  obtain ⟨noCode, L₂⟩ := n
  have hsame : (yesCode.bare.states = [] ∧ noCode.bare.states = []) ↔
      (yesCode.states = [] ∧ noCode.states = []) := by
    simp [Code.bare]
  simp only [hsame]
  split
  · exact twin_ok rfl (fair_now (endsAlike_snoc (endsAlike_cond test hy.start hn.start) cur))
  · -- the branches leave the state: each is ended with a jump, and so is the choice
    have hjump := endsAlike_jump (L₂.tagAt 0)
    have hboth : Op.EndsAlike (.cond test (yesCode.sealed [] (.jump (L₂.tagAt 0))).ops
        (noCode.sealed [] (.jump (L₂.tagAt 0))).ops) :=
      endsAlike_cond test (hy.sealed hjump).start (hn.sealed hjump).start
    have hchoice := fair_now (endsAlike_snoc hboth cur)
    refine (enter_twin (L₂.reserve 1) (L₂.tagAt 0)).bind fun L' _ => twin_ok ?_ ?_
    · unfold Sketch.splitCode
      have hyes : _ = yesCode.bare.sealed [] _ := sealed_bare hy (bareOps_jump (L₂.tagAt 0))
      have hno : _ = noCode.bare.sealed [] _ := sealed_bare hn (bareOps_jump (L₂.tagAt 0))
      rw [bare_append, sealed_bare hchoice (bareOps_jump _), tagAt_bare, ← hyes, ← hno]
      simp [Code.bare, bareOps, Op.isClear, Op.bare, Code.now]
    · exact (hchoice.sealed hjump).append (fair_states (hchoice.sealed hjump).stop _)

/-! ### Loops -/

/-- The states behind the body hold no drops. -/
theorem bareOps_tail (shape : Part.LoopShape) (loc : Location) (L : Ledger) :
    ∀ ops ∈ shape.tail loc L, bareOps ops = ops := by
  have htest : bareOps (shape.testOps L) = shape.testOps L := by
    unfold Part.LoopShape.testOps
    cases shape.test <;> rfl
  have hupdate : bareOps (shape.updateOps loc L) = shape.updateOps loc L := by
    rw [Part.LoopShape.updateOps, bareOps_append, bareOps_map fun _ => rfl]
    rfl
  unfold Part.LoopShape.tail
  split <;> simp [htest, hupdate, bareOps]

/-- A loop, whose rounds start with no drops. -/
theorem loop_spare (shape : Part.LoopShape) (loc : Location)
    (hshape : bareOps shape.start = shape.start) (hbody : Spare body) :
    Spare (Sketch.loop shape loc body) := by
  intro ctx cur hcur L
  have hstart : EndsAlike shape.start := congrArg endsTerminal hshape
  have hcontrol : shape.control L.bare = shape.control L := by
    simp only [Part.LoopShape.control, length_scopes_bare]
    rfl
  -- a round starts behind `shape.start`, which is its own bare form
  have hround := fun L₁ => scope_twins (hbody (ctx.enter (shape.control L))) hstart L₁
  simp only [hshape] at hround
  refine (enter_twin (L.reserve shape.tagCount) (L.tagAt 0)).bind fun L₁ _ => ?_
  rw [hcontrol]
  refine (hround L₁).bind fun r hr => (enterAll_twin r.2 (shape.tailTags L)).bind fun L' _ =>
    twin_ok ?_ ?_
  · have htail : (⟨[], shape.tail loc L⟩ : Code).bare = ⟨[], shape.tail loc L⟩ :=
      congrArg (Code.mk []) ((map_congr_left (bareOps_tail shape loc L)).trans (map_id _))
    simp only [bare_append, bare_now, bare_opened, hshape, htail,
      sealed_bare hr (bareOps_jump _), ← sealing_bare hcur (bareOps_jump _)]
    rfl
  · have hentry : Code.Fair cur (.now (Code.sealing cur (.jump (shape.entry L)))) := by
      have hnow := (fair_here hcur).sealed (endsAlike_jump (shape.entry L))
      rwa [Code.sealed, stop_now, List.append_nil] at hnow
    have hbody := (hentry.appendState (fair_now hstart)).append (by
      rw [stop_append, stop_append, stop_opened, stop_now]
      exact hr.sealed (endsAlike_jump (shape.again L)))
    rw [Part.LoopShape.tail, append_cons]
    exact hbody.append (fair_states hbody.stop _)

theorem testLoop_spare {testFirst : Bool} {test : Expr} (hbody : Spare body) :
    Spare (Sketch.testLoop label testFirst test loc body) := fun ctx _ hcur L =>
  (check_twin ctx loc test).bind fun _ _ => loop_spare _ loc rfl hbody ctx hcur L

theorem forLoop_spare {init : Context → Sketch} {test : Option Expr} {update : List Expr}
    (hinit : Spare init) (hbody : Spare body) :
    Spare (Sketch.forLoop label init test update loc body) := fun ctx _ hcur L =>
  (checkAll_twin ctx loc _).bind fun _ _ => (checkAll_twin ctx loc update).bind fun _ _ =>
    scope_twins (andThen_twins (hinit ctx) (loop_spare _ loc rfl hbody ctx)) hcur L

theorem forEach_spare {var : LocalDecl} {iterable : Expr} (hbody : Spare body) :
    Spare (Sketch.forEach label var iterable loc body) := by
  intro ctx cur hcur L
  refine (check_twin ctx loc iterable).bind fun _ _ =>
    (twin_same (Sketch.symbolOf var.name)).bind fun x _ => ?_
  refine scope_twins (fun cur hcur L => ?_) hcur L
  have hstart := endsAlike_snoc (endsAlike_assign L.nextSymbol (.method iterable "iterator" [])) cur
  dsimp only [Sketch.each]
  rw [show L.bare.nextSymbol = L.nextSymbol from rfl, ← bare_newField, ← bare_dropIfCleared,
    ← bare_captureLocal]
  generalize ((L.newField ctx _ _ _).dropIfCleared ctx _ _).captureLocal ctx x var.type = L₁
  have hloop := loop_spare ⟨label, true,
      some (Part.callOn (L₁.symbols.ident L.nextSymbol) "hasNext"),
    [.assign x (Part.callOn (L₁.symbols.ident L.nextSymbol) "next")],
    []⟩ loc rfl hbody ctx hstart L₁
  rw [bareOps_append] at hloop
  refine hloop.bind fun r hr => twin_ok ?_ ((fair_now hstart).append hr)
  rw [bare_append]
  rfl

/-! ### Switches, labels and locks -/

/-- Each case goes on to the next one. -/
theorem caseStates_twins (ctx : Context) (endTag : Tag)
    {cases : List ((SwitchCase × (Context → Sketch)) × Tag)} (hcases : ∀ c ∈ cases, Spare c.1.2) :
    Twins (Sketch.caseStates ctx endTag cases) (Sketch.caseStates ctx.bare endTag cases) := by
  induction cases with
  | nil => exact fun cur hcur L => twin_ok rfl (fair_here hcur)
  | cons c cases ih =>
    intro cur hcur L
    obtain ⟨⟨case, p⟩, tag⟩ := c
    obtain ⟨hp, hcases⟩ := forall_mem_cons.mp hcases
    refine (enter_twin L tag).bind fun L₁ _ => (hp ctx endsAlike_nil L₁).bind fun r hr => ?_
    have hended := hr.sealed (endsAlike_jump ((cases.head?.map Prod.snd).getD endTag))
    have hbare : _ = r.1.bare.sealed [] _ :=
      sealed_bare hr (bareOps_jump ((cases.head?.map Prod.snd).getD endTag))
    have hrest := ih hcases hended.stop r.2
    rw [← stop_bare, hbare] at hrest
    refine hrest.bind fun q hq => twin_ok ?_ ?_
    · rw [bare_append, bare_append, hbare, bare_opened]
    · exact ((fair_opened hcur).append hended).append (by rw [stop_append, stop_opened]; exact hq)

theorem chooseOps_bare (selector : Expr) (arms : List SwitchArm) (tag : Tag) :
    bareOps (chooseOps selector arms tag) = chooseOps selector arms tag := by
  unfold chooseOps
  split <;> rfl

theorem switch_spare {selector : Expr} {cases : List (SwitchCase × (Context → Sketch))}
    (hcases : ∀ c ∈ cases, Spare c.2) : Spare (Sketch.switch selector loc cases) := by
  intro ctx cur hcur L
  refine (check_twin ctx loc selector).bind fun _ _ => (checkAll_twin ctx loc _).bind fun _ _ => ?_
  refine scope_twins (fun cur hcur L => ?_) hcur L
  have hchoose : EndsAlike
      (cur ++ chooseOps selector (armsOf ((cases.map Prod.fst).zip (L.caseTags cases.length)))
      (L.tagAt 0)) := by
    unfold chooseOps
    split
    · exact endsAlike_snoc ⟨rfl, rfl⟩ cur
    · rw [append_cons]
      exact endsAlike_snoc (endsAlike_jump _) _
  have hstates := caseStates_twins (ctx.enter ⟨.switch, none, L.tagAt 0, none, L.scopes.length⟩)
      (L.tagAt 0)
    (fun c (hc : c ∈ cases.zip (L.caseTags cases.length)) => hcases c.1 (of_mem_zip hc).1) hchoose
    (L.reserve (cases.length + 1))
  rw [bareOps_append, chooseOps_bare] at hstates
  unfold Sketch.choice
  rw [length_scopes_bare]
  refine hstates.bind fun r hr => (enter_twin r.2 (L.tagAt 0)).bind fun L' _ => twin_ok ?_ ?_
  · simp only [bare_append, bare_now, bare_opened, chooseOps_bare]
    rfl
  · have hbefore := (fair_now hchoose).append hr
    exact hbefore.append (fair_opened hbefore.stop)

/-- A label is entered where the body ends. -/
theorem labeled_spare {label : String} (hbody : Spare body) :
    Spare (Sketch.labeled label body) := by
  intro ctx cur hcur L
  unfold Sketch.labeled
  rw [length_scopes_bare]
  refine (scope_twins (hbody (ctx.enter ⟨.labeled, some label, L.tagAt 0, none,
    L.scopes.length⟩)) hcur
    (L.reserve 1)).bind fun r hr => (enter_twin r.2 (L.tagAt 0)).bind fun L' _ => twin_ok ?_ ?_
  · rw [bare_append, sealed_bare hr (bareOps_jump _), bare_opened]
    rfl
  · have hsealed := hr.sealed (endsAlike_jump (L.tagAt 0))
    exact hsealed.append (fair_opened hsealed.stop)

theorem synchronized_spare {lock : Expr} {marker : Markers → Option (String × Location)}
    (hbody : Spare body) : Spare (Sketch.synchronized lock marker loc body) := by
  intro ctx cur hcur L
  refine (check_twin ctx loc lock).bind fun _ _ => ?_
  rw [show ctx.bare.markers = ctx.markers from rfl]
  cases marker ctx.markers with
  | some => exact rfl
  | none =>
    refine (scope_twins (hbody ctx) endsAlike_nil L).bind fun r hr => ?_
    have hsame : r.1.bare.states = [] ↔ r.1.states = [] := by simp [Code.bare]
    simp only [hsame]
    split
    · exact twin_ok rfl (fair_now (endsAlike_snoc (endsAlike_synchronized lock hr.start) cur))
    · exact rfl

/-! ### Guards -/

/-- What a guard is made of, without drops. -/
def bareGuard (r : List Handler × Code × Ledger) : List Handler × Code × Ledger :=
  (r.1, r.2.1.bare, r.2.2.bare)

/-- The handlers of a guard are the same, and their code without drops is that of their bodies. -/
theorem handlers_twin (ctx : Context) (hcatches : ∀ c ∈ catches, Spare c.2) {cur : List Op}
    (hcur : EndsAlike cur) (L : Ledger) :
    Twin bareGuard (fun r => r.2.1.Fair cur) (Sketch.handlers ctx catches cur L)
      (Sketch.handlers ctx.bare catches (bareOps cur) L.bare) := by
  induction catches generalizing cur L with
  | nil => exact twin_ok rfl (fair_here hcur)
  | cons c catches ih =>
    obtain ⟨clause, p⟩ := c
    obtain ⟨hp, hcatches⟩ := forall_mem_cons.mp hcatches
    refine (twin_same (Sketch.symbolOf clause.param)).bind fun x _ =>
      (enter_twin (L.reserve 1) (L.tagAt 0)).bind fun L₁ _ => ?_
    have hbody : Twins
        (fun cur L => p ctx cur (L.captureLocal ctx x (CatchClause.paramTypeOf clause.types)))
        (fun cur L => p ctx.bare cur
          (L.captureLocal ctx.bare x (CatchClause.paramTypeOf clause.types))) := by
      intro cur hcur L
      have hparam := hp ctx hcur (L.captureLocal ctx x (CatchClause.paramTypeOf clause.types))
      rwa [bare_captureLocal] at hparam
    refine (scope_twins hbody endsAlike_nil L₁).bind fun r hr => ?_
    have hended := hr.sealed endsAlike_finish
    have hbare : _ = r.1.bare.sealed [] _ := sealed_bare hr bareOps_finish
    have hrest := ih hcatches hended.stop r.2
    rw [← stop_bare, hbare] at hrest
    refine hrest.bind fun q hq => twin_ok ?_ ?_
    · simp only [bareGuard, bare_append, hbare, bare_opened]
      rfl
    · exact ((fair_opened hcur).append hended).append (by rw [stop_append, stop_opened]; exact hq)

theorem bareOps_initOps (resources : List (SymbolId × Option Expr)) :
    bareOps (initOps resources) = initOps resources := by
  induction resources with
  | nil => rfl
  | cons r resources ih =>
    rw [initOps, flatMap_cons, bareOps_append, bareOps_map fun _ => rfl]
    exact congrArg (_ ++ ·) ih

/-- Ops without drops may be added. -/
theorem endsAlike_append {cur ops : List Op} (hcur : EndsAlike cur) (hops : bareOps ops = ops) :
    EndsAlike (cur ++ ops) := by
  cases ops with
  | nil => exact (List.append_nil cur).symm ▸ hcur
  | cons =>
    rw [EndsAlike, bareOps_append, hops, endsTerminal_append (cons_ne_nil _ _),
      endsTerminal_append (cons_ne_nil _ _)]

theorem guardedBody_twin (ctx : Context) (resources : List (SymbolId × Option Expr))
    (hbody : Spare body) (hcatches : ∀ c ∈ catches, Spare c.2) {cur : List Op}
    (hcur : EndsAlike cur) (L : Ledger) :
    Twin bareGuard (fun r => r.2.1.Fair cur) (Sketch.guardedBody ctx resources body catches cur L)
      (Sketch.guardedBody ctx.bare resources body catches (bareOps cur) L.bare) := by
  have hopening : Twins (Sketch.opening resources (Sketch.scope (body ctx)))
      (Sketch.opening resources (Sketch.scope (body ctx.bare))) := by
    intro cur hcur L
    have hbody := scope_twins (hbody ctx) (endsAlike_append hcur (bareOps_initOps resources)) L
    rw [bareOps_append, bareOps_initOps] at hbody
    refine hbody.bind fun r hr => twin_ok ?_ ((fair_now ?_).append hr)
    · rw [bare_append, bare_now, bareOps_initOps]
    · exact endsAlike_append hcur (bareOps_initOps resources)
  refine (scope_twins hopening hcur L).bind fun r hr => ?_
  have hended := hr.sealed endsAlike_finish
  have hbare := sealed_bare hr bareOps_finish
  have hrest := handlers_twin ctx hcatches hended.stop r.2
  rw [← stop_bare, hbare] at hrest
  refine hrest.bind fun q hq => twin_ok ?_ (hended.append hq)
  simp only [bareGuard, bare_append, hbare]

theorem bareOps_reset (g : Ledger.GuardNames) (xs : List SymbolId) :
    bareOps (g.reset xs) = g.reset xs := by
  rw [Ledger.GuardNames.reset, bareOps_append, bareOps_map fun _ => rfl]
  rfl

/-- A guard resets the same fields, and passes on the same transfers. -/
theorem tryCatch_spare {resources : List LocalDecl} {final : Option (Context → Sketch)}
    (hbody : Spare body) (hcatches : ∀ c ∈ catches, Spare c.2) (hfinal : ∀ q ∈ final, Spare q) :
    Spare (Sketch.tryCatch resources body catches final loc) := by
  intro ctx cur hcur L
  refine (checkAll_twin ctx loc _).bind fun _ _ =>
    (twin_same (Sketch.symbolsOf _)).bind fun xs _ => ?_
  have hguard := enter_twin ((L.declareGuard ctx (xs.zip (resources.map LocalDecl.type))).reserve 3)
      (L.tagAt 0)
  rw [bare_reserve, bare_declareGuard] at hguard
  refine hguard.bind fun L₂ _ => ?_
  have hinner := guardedBody_twin ctx (xs.zip (resources.map LocalDecl.init)) hbody hcatches
    endsAlike_nil (L₂.nest ⟨L.nextMachine⟩ L.guardNames)
  rw [bare_nest] at hinner
  refine hinner.bind fun r hr => (enter_twin (r.2.2.unnest L₂) (L.tagAt 1)).bind fun L₃ _ => ?_
  refine (branch_spare hfinal ctx endsAlike_nil L₃).bind fun q hq => ?_
  -- the final code ends alike, so that what settles the guard is added to both or to neither
  have hsettle := settleOps_twin q.2 ctx hq.stop L.guardNames r.2.2.exits
  rw [← stop_bare] at hsettle
  refine hsettle.bind fun t ht => (enter_twin t.2 (L.tagAt 2)).bind fun L' _ => ?_
  have hcode := hq.append (fair_now ht)
  refine twin_ok ?_ ?_
  · simp only [bare_append, bare_now, bare_opened, sealed_bare hcode (bareOps_jump _),
      bareOps_append, bareOps_reset, bareOps_jump]
    simp only [bareOps, Op.isClear, Op.bare, machine_bare]
    rfl
  · have hreset : Code.Fair cur (.now (L.guardNames.reset xs ++ [.jump (L.tagAt 0)])) :=
      fair_now (endsAlike_append hcur (by rw [bareOps_append, bareOps_reset]; rfl))
    have hguarded := hreset.appendState (fair_now (endsAlike_snoc
      (endsAlike_jump (L.tagAt 1)) [.guarded (r.2.1.machine ⟨L.nextMachine⟩ L.guardNames.selector)
        ⟨xs, r.1, L.guardNames.inHandler, L.guardNames.pending, L.guardNames.pendingJump⟩]))
    have hfinal := hguarded.appendState (hcode.sealed (endsAlike_jump (L.tagAt 2)))
    exact hfinal.append (fair_opened hfinal.stop)

end Constructs

/-! ## Statements -/

/-- A labelled statement, whose label may be in force already. -/
theorem checked_spare {label : String} {loc : Location} {p : Context → Sketch} (hp : Spare p) :
    Spare fun ctx cur L => Sketch.checkLabel ctx label loc >>= fun _ => p ctx cur L :=
  fun ctx _ hcur L =>
  (twin_same (Sketch.checkLabel ctx label loc)).bind fun _ _ => hp ctx hcur L

mutual

/-- **A statement without drops is lowered to the bare form of its code.** -/
theorem sketch_spare : ∀ st : Stmt, Spare st.sketch
  | .empty _ => unlessPlain_spare fun _ _ hcur _ => twin_ok rfl (fair_here hcur)
  | .expr e _ => expr_spare e
  | .declare d _ => declare_spare d
  | .block body _ => unlessPlain_spare fun ctx => scope_twins (sketchAll_spare body ctx)
  | .cond _ yes no _ => unlessPlain_spare (cond_spare (sketch_spare yes) (sketchElse_spare no))
  | .whileLoop _ body _ => unlessPlain_spare (testLoop_spare (sketch_spare body))
  | .doWhile body _ _ => unlessPlain_spare (testLoop_spare (sketch_spare body))
  | .forLoop init _ _ body _ =>
    unlessPlain_spare (forLoop_spare (sketchAll_spare init) (sketch_spare body))
  | .forEach _ _ body _ => unlessPlain_spare (forEach_spare (sketch_spare body))
  | .switch _ cases _ => unlessPlain_spare (switch_spare (sketchCases_spare cases))
  | .tryCatch _ body catches final _ =>
    unlessPlain_spare (tryCatch_spare (sketchAll_spare body) (sketchCatches_spare catches)
      (sketchFinal_spare final))
  | .labeled label body loc => by
    by_cases hloop : body.isLoop
    · rw [Stmt.sketch_labeledLoop hloop]
      refine unlessPlain_spare (checked_spare ?_)
      cases body with
      | whileLoop test b | doWhile b => exact testLoop_spare (sketch_spare b)
      | forLoop init test update b => exact forLoop_spare (sketchAll_spare init) (sketch_spare b)
      | forEach var iterable b => exact forEach_spare (sketch_spare b)
      | _ => cases hloop
    · have hbody := sketch_spare body
      rw [Stmt.sketch_labeled (by simpa using hloop)]
      exact unlessPlain_spare (checked_spare (labeled_spare hbody))
  | .synchronized _ body _ => unlessPlain_spare (synchronized_spare (sketchAll_spare body))
  | .ret value _ => ret_spare value
  | .brk label _ => brk_spare label
  | .cont label _ => cont_spare label
  | .raise e _ => unlessPlain_spare (misplaced_spare e)

theorem sketchAll_spare : ∀ ss : List Stmt, Spare (sketchAll ss)
  | [] => fun _ _ hcur _ => twin_ok rfl (fair_here hcur)
  | st :: ss => fun ctx => andThen_twins (sketch_spare st ctx) (sketchAll_spare ss ctx)

theorem sketchElse_spare : ∀ no : Option Stmt, ∀ p ∈ sketchElse no, Spare p
  | none, _, hp => nomatch hp
  | some st, _, hp => Option.mem_some.mp hp ▸ sketch_spare st

theorem sketchFinal_spare : ∀ final : Option (List Stmt), ∀ p ∈ sketchFinal final, Spare p
  | none, _, hp => nomatch hp
  | some body, _, hp => Option.mem_some.mp hp ▸ sketchAll_spare body

theorem sketchCases_spare : ∀ cases : List SwitchCase, ∀ c ∈ sketchCases cases, Spare c.2
  | [] => nofun
  | .mk _ _ body :: cases => forall_mem_cons.mpr ⟨sketchAll_spare body, sketchCases_spare cases⟩

theorem sketchCatches_spare : ∀ catches : List CatchClause, ∀ c ∈ sketchCatches catches, Spare c.2
  | [] => nofun
  | .mk _ _ body :: catches =>
    forall_mem_cons.mpr ⟨sketchAll_spare body, sketchCatches_spare catches⟩

end

/-- A procedure without drops is lowered to the bare form of its code. -/
theorem procedure_twin (ctx : Context) (q : Procedure) (symbols : SymbolTable) :
    Twin (fun r => (r.1.bare, r.2.bare)) (fun r => r.1.Fair []) (Sketch.procedure ctx q symbols)
      (Sketch.procedure ctx.bare q symbols) := by
  refine (twin_same (Sketch.symbolsOf _)).bind fun xs _ => ?_
  have hbody := scope_twins (sketchAll_spare q.body ctx) endsAlike_nil
    ((Ledger.initial symbols).captureParams (xs.zip (q.params.map Param.type)))
  rwa [bare_captureParams] at hbody

end Lowering

open Lowering

/-- The lowered statements without drops. -/
def LoweredBody.bare (b : LoweredBody) : LoweredBody :=
  { b with machine := b.machine.bare, captures := b.captures.retained }

/-- The lowered body of code without drops. -/
theorem Lowering.Code.body_bare {code : Code} (h : code.Fair []) (L : Ledger)
    (symbols : SymbolTable) : code.bare.body L.bare symbols = (code.body L symbols).bare := by
  have hsealed : _ = code.bare.sealed [] _ := Code.sealed_bare h bareOps_finish
  simp only [Code.body, LoweredBody.bare, Code.machine_bare, hsealed]
  rfl

/-- Which fields are dropped plays no part in what is checked when a class is put together. -/
theorem Procedure.assemble_bare (p : Procedure) (elementType : TypeRef) (body : LoweredBody)
    (settings : Settings) :
    p.assemble elementType body.bare { settings with clearReferences := false } =
      (p.assemble elementType body settings).map GeneratorClass.bare := by
  have hfields : ∀ params : List Param,
      params.forM (checkField body.captures.retained) = params.forM (checkField body.captures) := by
    intro params
    have hone : checkField body.captures.retained = checkField body.captures := by
      funext x
      unfold checkField
      rw [show body.captures.retained.contains = body.captures.contains from
        funext body.captures.contains_retained]
    rw [hone]
  show (body.tags.verify >>= fun _ => p.params.forM (checkField body.captures.retained) >>=
      fun _ => Except.ok _) =
    Except.map _ (body.tags.verify >>= fun _ => p.params.forM (checkField body.captures) >>=
      fun _ => Except.ok _)
  rw [hfields]
  cases body.tags.verify with
  | error => rfl
  | ok =>
    show (p.params.forM (checkField body.captures) >>= fun _ => Except.ok _) =
      Except.map _ (p.params.forM (checkField body.captures) >>= fun _ => Except.ok _)
    cases p.params.forM (checkField body.captures) with
    | error | ok => rfl

/-- **Dropping references changes nothing else.** A procedure is refused for the same reason whether
references are dropped or not; where it is accepted, the class without drops is that with drops,
less the ops that drop references at any depth, and its fields are those of that class, all of them
retained. -/
theorem Procedure.lower_bare (p : Procedure) (settings : Settings) :
    p.lower { settings with clearReferences := false } =
      (p.lower { settings with clearReferences := true }).map GeneratorClass.bare := by
  have htwin := procedure_twin (p.context { settings with clearReferences := true }) p.resolve.1
      p.resolve.2
  rw [lower_eq, lower_eq]
  show (Sketch.procedure (p.context { settings with clearReferences := true }).bare _ _ >>= _) = _
  -- the two sketches fail together, or the class is put together from the bare form of the body
  cases hrun : Sketch.procedure (p.context { settings with clearReferences := true }) p.resolve.1
    p.resolve.2 with
  | error e =>
    rw [hrun] at htwin
    rw [show _ = _ from htwin]
    rfl
  | ok r =>
    rw [hrun] at htwin
    obtain ⟨hbare, hfair⟩ := htwin
    rw [hbare]
    have hclass := p.resolve.1.assemble_bare
        (p.context { settings with clearReferences := true }).elementType
      (r.1.body r.2 p.resolve.2) { settings with clearReferences := true }
    rw [← Code.body_bare hfair] at hclass
    exact hclass

end Resumable
