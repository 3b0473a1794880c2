import Resumable.Proofs.Sketch

/-!
# What a step of lowering adds to a frame

A frame is looked at through its cursors only: how many states and buffers there are, and which ops
stand at each cursor. On this view, every step of lowering puts ops at one cursor and opens states
behind the last one. The frames around it are part of the view as they are: no step touches them.

* `View.add` is the view after some code was added at a cursor;
* `Looks` ties a state of lowering to its ledger and its view;
* each primitive step has a lemma: what it does to the ledger and the view (`Yields`), or which
  computation it is (`Agrees`, `Reads`).
-/

namespace Resumable

open List

namespace Lowering

/-! ## Views -/

/-- A frame as its cursors show it. -/
@[ext] structure View where
  /-- the number of states -/
  size : Nat
  /-- the number of buffers -/
  buffers : Nat
  /-- the ops at each cursor -/
  ops : Cursor → List Op
  /-- every state carries the number of its place -/
  ordered : Prop
  /-- the frames around it, innermost first -/
  around : List Frame

namespace View

variable {c d : Cursor} {v : View}

/-- With more ops at a cursor. -/
def put (v : View) (c : Cursor) (ops : List Op) : View :=
  { v with ops := fun d => if d = c then v.ops c ++ ops else v.ops d }

/-- With one more state. -/
def openState (v : View) : View := { v with size := v.size + 1 }

/-- With more states. -/
def grow (v : View) : List (List Op) → View
  | [] => v
  | s :: ss => (v.openState.put (.state ⟨v.size + 1⟩) s).grow ss

/-- With code added at a cursor. -/
def add (v : View) (c : Cursor) (code : Code) : View := (v.put c code.ops).grow code.states

/-- With one more buffer. -/
def openBuffer (v : View) : View := { v with buffers := v.buffers + 1 }

/-- Without the last buffer. -/
def closeBuffer (v : View) : View :=
  { v with
    buffers := v.buffers - 1
    ops := fun d => if d = .scratch (v.buffers - 1) then [] else v.ops d }

/-- The cursor is there. -/
def Has (v : View) : Cursor → Prop
  | .state id => 0 < id.number ∧ id.number ≤ v.size
  | .scratch i => i < v.buffers

/-- Cursors that are not there have no ops. -/
def Tidy (v : View) : Prop := ∀ c, ¬ v.Has c → v.ops c = []

@[simp] theorem put_size (v : View) (c : Cursor) (ops : List Op) :
    (v.put c ops).size = v.size := rfl

@[simp] theorem put_buffers (v : View) (c : Cursor) (ops : List Op) :
    (v.put c ops).buffers = v.buffers := rfl

@[simp] theorem ops_put_self (v : View) (c : Cursor) (ops : List Op) :
    (v.put c ops).ops c = v.ops c ++ ops := if_pos rfl

theorem ops_put_of_ne (v : View) (h : d ≠ c) (ops : List Op) :
    (v.put c ops).ops d = v.ops d := if_neg h

theorem put_put (v : View) (c : Cursor) (a b : List Op) :
    (v.put c a).put c b = v.put c (a ++ b) := by
  refine congrArg (fun ops => { v with ops }) (funext fun d => ?_)
  by_cases h : d = c
  · simp [h]
  · simp [ops_put_of_ne, h]

@[simp] theorem put_nil (v : View) (c : Cursor) : v.put c [] = v := by
  refine congrArg (fun ops => { v with ops }) (funext fun d => ?_)
  by_cases h : d = c
  · simp [h]
  · simp [h]

/-- The order does not matter at different cursors. -/
theorem put_comm (v : View) (h : c ≠ d) (a b : List Op) :
    (v.put c a).put d b = (v.put d b).put c a := by
  refine congrArg (fun ops => { v with ops }) (funext fun e => ?_)
  by_cases hc : e = c
  · subst hc
    simp [ops_put_of_ne, h]
  · by_cases hd : e = d
    · subst hd
      simp [ops_put_of_ne, hc]
    · simp [ops_put_of_ne, hc, hd]

theorem Has.openState (h : v.Has c) : v.openState.Has c := by
  cases c with
  | state => exact ⟨h.1, Nat.le_succ_of_le h.2⟩
  | scratch => exact h

theorem has_new (v : View) : v.openState.Has (.state ⟨v.size + 1⟩) :=
  ⟨Nat.succ_pos _, Nat.le_refl _⟩

/-- A state that is there is none of the new ones. -/
theorem Has.ne_new (h : v.Has c) : c ≠ .state ⟨v.size + 1⟩ := by
  rintro rfl
  exact absurd h.2 (Nat.not_succ_le_self _)

theorem Tidy.put (hv : v.Tidy) (hc : v.Has c) (ops : List Op) : (v.put c ops).Tidy := by
  intro d hd
  have hne : d ≠ c := fun h => hd (h ▸ hc)
  rw [ops_put_of_ne v hne]
  exact hv d hd

theorem Tidy.openState (hv : v.Tidy) : v.openState.Tidy :=
  fun d hd => hv d fun h => hd h.openState

/-! ### New states -/

@[simp] theorem grow_size (v : View) (ss : List (List Op)) :
    (v.grow ss).size = v.size + ss.length := by
  induction ss generalizing v with
  | nil => rfl
  | cons s ss ih =>
    rw [grow, ih, length_cons]
    exact Nat.add_right_comm ..

/-- New states are all that is new. -/
@[simp] theorem grow_same (v : View) (ss : List (List Op)) :
    (v.grow ss).buffers = v.buffers ∧ (v.grow ss).ordered = v.ordered ∧
      (v.grow ss).around = v.around := by
  induction ss generalizing v with
  | nil => exact ⟨rfl, rfl, rfl⟩
  | cons s ss ih => exact ih _

theorem grow_append (v : View) (a b : List (List Op)) : v.grow (a ++ b) = (v.grow a).grow b := by
  induction a generalizing v with
  | nil => rfl
  | cons s a ih => exact ih _

theorem Has.grow (h : v.Has c) (ss : List (List Op)) : (v.grow ss).Has c := by
  induction ss generalizing v with
  | nil => exact h
  | cons s ss ih => exact ih (v := v.openState.put _ s) h.openState

theorem Tidy.grow (hv : v.Tidy) (ss : List (List Op)) : (v.grow ss).Tidy := by
  induction ss generalizing v with
  | nil => exact hv
  | cons s ss ih => exact ih (hv.openState.put v.has_new s)

/-- Old cursors are apart from the states that are opened. -/
theorem put_grow (v : View) (hc : v.Has c) (ops : List Op) (ss : List (List Op)) :
    (v.grow ss).put c ops = (v.put c ops).grow ss := by
  induction ss generalizing v with
  | nil => rfl
  | cons s ss ih =>
    rw [grow, grow, ih (v.openState.put _ s) hc.openState, put_comm _ hc.ne_new.symm]
    rfl

theorem ops_grow (v : View) (hc : v.Has c) (ss : List (List Op)) : (v.grow ss).ops c = v.ops c := by
  induction ss generalizing v with
  | nil => rfl
  | cons s ss ih =>
    rw [grow, ih (v.openState.put _ s) hc.openState, ops_put_of_ne _ hc.ne_new]
    rfl

/-! ### Code -/

@[simp] theorem add_size (v : View) (c : Cursor) (code : Code) :
    (v.add c code).size = v.size + code.states.length := by
  simp [add]

@[simp] theorem add_buffers (v : View) (c : Cursor) (code : Code) :
    (v.add c code).buffers = v.buffers := by
  simp [add]

@[simp] theorem add_now (v : View) (c : Cursor) (ops : List Op) :
    v.add c (.now ops) = v.put c ops := rfl

@[simp] theorem add_opened (v : View) (c : Cursor) : v.add c .opened = v.openState := by
  show (v.put c []).openState.put _ [] = v.openState
  rw [put_nil, put_nil]

theorem Has.add (h : v.Has d) (c : Cursor) (code : Code) : (v.add c code).Has d :=
  Has.grow (v := v.put c code.ops) h _

theorem Tidy.add (hv : v.Tidy) (hc : v.Has c) (code : Code) : (v.add c code).Tidy :=
  (hv.put hc _).grow _

theorem put_add (v : View) (hcd : c ≠ d) (hd : v.Has d) (ops : List Op) (code : Code) :
    (v.add c code).put d ops = (v.put d ops).add c code := by
  rw [add, put_grow (v.put c code.ops) hd, put_comm v hcd]
  rfl

theorem ops_add (v : View) (hcd : d ≠ c) (hd : v.Has d) (code : Code) :
    (v.add c code).ops d = v.ops d := by
  rw [add, ops_grow (v.put c code.ops) hd, ops_put_of_ne v hcd]

end View

/-- Where lowering goes on behind code that was added at a cursor of a machine with `n` states. -/
def Cursor.after (c : Cursor) (n : Nat) (code : Code) : Cursor :=
  match code.states with
  | [] => c
  | _ :: _ => .state ⟨n + code.states.length⟩

namespace Cursor

theorem after_cons (c : Cursor) (n : Nat) (ops s : List Op) (ss : List (List Op)) :
    c.after n ⟨ops, s :: ss⟩ = (Cursor.state ⟨n + 1⟩).after (n + 1) ⟨s, ss⟩ := by
  cases ss with
  | nil => rfl
  | cons =>
    simp only [after, length_cons]
    congr 2
    omega

/-- Code behind code goes on where the second piece stops. -/
theorem after_append (c : Cursor) (n : Nat) (a b : Code) :
    (c.after n a).after (n + a.states.length) b = c.after n (a ++ b) := by
  obtain ⟨ops, ss⟩ := a
  induction ss generalizing c n ops with
  | nil =>
    obtain ⟨ops', ss'⟩ := b
    cases ss' with
    | nil | cons => rfl
  | cons s ss ih =>
    have h := ih (.state ⟨n + 1⟩) (n + 1) s
    rw [after_cons, Code.mk_cons_append, after_cons, ← h]
    congr 1
    simp only [length_cons]
    omega

/-- A buffer is left for good where code opens a state. -/
theorem after_scratch {i n : Nat} {code : Code} : (Cursor.scratch i).after n code = .scratch i ↔
    code.states = [] := by
  unfold after
  split
  · simp [*]
  · simp [*]

end Cursor

namespace View

variable {c : Cursor} {v : View}

/-- Adding code where other code stops is adding both. -/
theorem add_add (v : View) (c : Cursor) (a b : Code) :
    (v.add c a).add (c.after v.size a) b = v.add c (a ++ b) := by
  obtain ⟨ops, ss⟩ := a
  induction ss generalizing v c ops with
  | nil =>
    show ((v.put c ops).put c b.ops).grow b.states = _
    rw [put_put]
    rfl
  | cons s ss ih =>
    rw [Cursor.after_cons]
    exact ih (v.put c ops).openState (.state ⟨v.size + 1⟩) s

theorem Has.after (hc : v.Has c) (code : Code) : (v.add c code).Has (c.after v.size code) := by
  obtain ⟨ops, ss⟩ := code
  cases ss with
  | nil => exact hc
  | cons => exact ⟨Nat.succ_pos _, Nat.le_of_eq (add_size ..).symm⟩

/-- The ops where code stops. -/
theorem ops_after (hv : v.Tidy) (hc : v.Has c) (code : Code) :
    (v.add c code).ops (c.after v.size code) = code.stop (v.ops c) := by
  obtain ⟨ops, ss⟩ := code
  induction ss generalizing v c ops with
  | nil => exact ops_put_self ..
  | cons s ss ih =>
    have hnew : (v.put c ops).openState.ops (.state ⟨v.size + 1⟩) = [] :=
      (hv.put hc ops) _ fun h => h.ne_new rfl
    have h := ih (hv.put hc ops).openState (v.put c ops).has_new s
    rw [Cursor.after_cons, Code.stop_mk_cons, ← hnew]
    exact h

/-! ### Buffers -/

@[simp] theorem openBuffer_buffers (v : View) : v.openBuffer.buffers = v.buffers + 1 := rfl

theorem Has.openBuffer (h : v.Has c) : v.openBuffer.Has c := by
  cases c with
  | state => exact h
  | scratch => exact Nat.lt_succ_of_lt h

theorem has_buffer (v : View) : v.openBuffer.Has (.scratch v.buffers) := Nat.lt_succ_self _

theorem Has.ne_buffer (h : v.Has c) : c ≠ .scratch v.buffers := by
  rintro rfl
  exact absurd h (Nat.lt_irrefl _)

theorem Tidy.openBuffer (hv : v.Tidy) : v.openBuffer.Tidy :=
  fun d hd => hv d fun h => hd h.openBuffer

theorem closeBuffer_grow (v : View) (ss : List (List Op)) :
    (v.grow ss).closeBuffer = v.closeBuffer.grow ss := by
  induction ss generalizing v with
  | nil => rfl
  | cons s ss ih =>
    rw [grow, grow, ih]
    refine congrArg (fun ops => View.grow ⟨v.size + 1, v.buffers - 1, ops, v.ordered, v.around⟩ ss)
      (funext fun d => ?_)
    by_cases hd : d = .scratch (v.buffers - 1)
    · subst hd
      rfl
    · by_cases hs : d = .state ⟨v.size + 1⟩
      · subst hs
        rfl
      · simp [closeBuffer, openState, put, hd, hs]

/-- A buffer that is opened, filled and closed leaves the new states only. -/
theorem closeBuffer_add (hv : v.Tidy) (code : Code) :
    (v.openBuffer.add (.scratch v.buffers) code).closeBuffer = v.grow code.states := by
  rw [add, closeBuffer_grow]
  refine congrArg (fun ops => View.grow { v with ops } code.states) (funext fun d => ?_)
  by_cases hd : d = .scratch v.buffers
  · subst hd
    simp [openBuffer, hv _ fun h => h.ne_buffer rfl]
  · simp [openBuffer, put, hd]

theorem ops_buffer (hv : v.Tidy) (code : Code) :
    (v.openBuffer.add (.scratch v.buffers) code).ops (.scratch v.buffers) = code.ops := by
  have hnew : v.openBuffer.ops (.scratch v.buffers) = [] := hv _ fun h => h.ne_buffer rfl
  have hbuffer : (v.openBuffer.put (.scratch v.buffers) code.ops).Has (.scratch v.buffers) :=
    v.has_buffer
  rw [add, ops_grow _ hbuffer, ops_put_self, hnew, nil_append]

end View

end Lowering

/-! ## Blocks -/

namespace Block

/-- Every state carries the number of its place. -/
def Numbered (b : Block) : Prop := ∀ (i : Nat) (state : MachineState), b.states[i]? = some state →
    state.id = ⟨i + 1⟩

theorem new_numbered (id : MachineId) (selector : SymbolId) : (new id selector).Numbered := by
  intro i state h
  cases i with
  | zero =>
    cases h
    rfl
  | succ => cases h

/-- A new state carries the number of its place. -/
theorem openState_numbered (b : Block) : b.openState.2.Numbered ↔ b.Numbered := by
  have hnew : ∀ i, b.openState.2.states[i]? = if i = b.size then some (.mk ⟨b.size + 1⟩ [])
      else b.states[i]? :=
    fun i => Array.getElem?_push
  constructor
  · intro hb i state h
    have hi : i ≠ b.size := Nat.ne_of_lt (Array.getElem?_eq_some_iff.mp h).1
    exact hb i state (by rw [hnew, if_neg hi, h])
  · intro hb i state h
    rw [hnew] at h
    split at h
    · next hi =>
      cases h
      rw [hi]
      rfl
    · exact hb i state h

theorem ops_openState (b : Block) (id : StateId) : b.openState.2.ops id = b.ops id := by
  obtain ⟨n⟩ := id
  cases n with
  | zero => rfl
  | succ n =>
    show ((b.states.push (.mk ⟨b.size + 1⟩ []))[n]?.map MachineState.ops).getD [] =
      (b.states[n]?.map MachineState.ops).getD []
    rw [Array.getElem?_push]
    split
    · next hn =>
      rw [hn, Array.getElem?_eq_none (Nat.le_refl _)]
      rfl
    · rfl

/-- What adding an op does. -/
structure Pushed (b b' : Block) (id : StateId) (op : Op) : Prop where
  number : b'.id = b.id
  selector : b'.selector = b.selector
  size : b'.size = b.size
  ops_self : b'.ops id = b.ops id ++ [op]
  ops_other : ∀ d, d ≠ id → b'.ops d = b.ops d
  numbered : b'.Numbered ↔ b.Numbered

theorem push_of_le {b : Block} {id : StateId} (hpos : 0 < id.number) (hle : id.number ≤ b.size)
    (op : Op) : ∃ b', b.push id op = .ok b' := by
  obtain ⟨n⟩ := id
  cases n with
  | zero => cases hpos
  | succ => exact ⟨_, if_pos hle⟩

/-- An op is added at the end of one state. -/
theorem push_ok {b b' : Block} {id : StateId} {op : Op} (h : b.push id op = .ok b') :
    Pushed b b' id op := by
  obtain ⟨n⟩ := id
  cases n with
  | zero => cases h
  | succ n =>
    simp only [push, StateId.index?] at h
    split at h
    · next hn =>
      cases h
      have hn : n < b.states.size := hn
      have hget : b.states[n]? = some b.states[n] := Array.getElem?_eq_getElem hn
      refine ⟨rfl, rfl, Array.size_modify, ?_, ?_, ?_⟩
      · show ((b.states.modify n _)[n]?.map MachineState.ops).getD [] =
          (b.states[n]?.map MachineState.ops).getD [] ++ [op]
        rw [Array.getElem?_modify, if_pos rfl, hget]
        rfl
      · rintro ⟨d⟩ hd
        cases d with
        | zero => rfl
        | succ d =>
          have hne : n ≠ d := by
            rintro rfl
            exact hd rfl
          simp [ops, StateId.index?, Array.getElem?_modify, hne]
      · simp only [Numbered, Array.getElem?_modify]
        refine forall_congr' fun i => ?_
        by_cases hi : n = i
        · subst hi
          simp only [if_pos, hget, Option.map_some, Option.some.injEq, forall_eq']
          exact Iff.rfl
        · rw [if_neg hi]
    · cases h

end Block

namespace Lowering

/-! ## States of lowering -/

/-- The machine at hand as its cursors show it, and those around it. -/
def State.view (s : State) : View :=
  ⟨s.frame.block.size, s.frame.scratch.size, opsAt s.frame, s.frame.block.Numbered, s.outers⟩

/-- The ledger and the view of a state. -/
structure Looks (s : State) (L : Ledger) (v : View) : Prop where
  ledger : s.ledger = L
  view : s.view = v

/-- There are no ops where there is no state or buffer. -/
theorem State.view_tidy (s : State) : s.view.Tidy := by
  intro c hc
  cases c with
  | state id =>
    obtain ⟨n⟩ := id
    cases n with
    | zero => rfl
    | succ n =>
      have hn : s.frame.block.states.size ≤ n := Nat.not_lt.mp fun h => hc ⟨Nat.succ_pos _, h⟩
      show ((s.frame.block.states[n]?).map MachineState.ops).getD [] = []
      rw [Array.getElem?_eq_none hn]
      rfl
  | scratch i =>
    have hi : s.frame.scratch.size ≤ i := Nat.not_lt.mp hc
    show s.frame.scratch[i]?.getD [] = []
    rw [Array.getElem?_eq_none hi]
    rfl

/-! ## Runs -/

/-- The step succeeds with that answer, and leaves that ledger and view. -/
def Yields {α : Type} (x : Lower α) (s : State) (a : α) (L : Ledger) (v : View) : Prop :=
  ∃ s', x s = .ok (a, s') ∧ Looks s' L v

/-- The run and the computation fail alike, or succeed with results that go together. -/
def Agrees {α β : Type} (R : α → State → β → Prop) :
    Except LoweringError (α × State) → Except LoweringError β → Prop
  | .ok (a, s), .ok b => R a s b
  | .error e, .error e' => e = e'
  | _, _ => False

/-- The step is that computation and changes nothing. -/
def Reads {α : Type} (x : Lower α) (y : Except LoweringError α) : Prop := ∀ s, x s = y.map (·, s)

section Runs

variable {α β γ δ : Type} {x : Lower α} {f : α → Lower γ} {s : State} {a : α} {L L' : Ledger}
  {v v' : View}
  {R : γ → State → δ → Prop} {y : Except LoweringError β} {g : β → Except LoweringError δ}
  {z : Except LoweringError δ}

theorem Yields.bind {c : γ} (hx : Yields x s a L v)
    (hf : ∀ s', Looks s' L v → Yields (f a) s' c L' v') : Yields (x >>= f) s c L' v' := by
  obtain ⟨s', hrun, h⟩ := hx
  obtain ⟨s'', hrun', h'⟩ := hf s' h
  refine ⟨s'', ?_, h'⟩
  show (x s >>= fun r => f r.1 r.2) = _
  rw [hrun]
  exact hrun'

theorem Agrees.step (hx : Yields x s a L v) (hf : ∀ s', Looks s' L v → Agrees R (f a s') z) :
    Agrees R ((x >>= f) s) z := by
  obtain ⟨s', hrun, h⟩ := hx
  show Agrees R (x s >>= fun r => f r.1 r.2) z
  rw [hrun]
  exact hf s' h

/-- Runs and computations go on alike from results that go together. -/
theorem Agrees.bind {Q : α → State → β → Prop} (hx : Agrees Q (x s) y)
    (hf : ∀ a s' b, y = .ok b → Q a s' b → Agrees R (f a s') (g b)) :
    Agrees R ((x >>= f) s) (y >>= g) := by
  show Agrees R (x s >>= fun r => f r.1 r.2) (y >>= g)
  cases hrun : x s with
  | ok r =>
    rw [hrun] at hx
    cases y with
    | ok b => exact hf r.1 r.2 b rfl hx
    | error => exact hx.elim
  | error =>
    rw [hrun] at hx
    cases y with
    | ok => exact hx.elim
    | error => exact hx

/-- The last step of a run. -/
theorem Agrees.last {Q : α → State → δ → Prop} (h : Agrees Q ((x >>= pure) s) z) :
    Agrees Q (x s) z := by
  rwa [bind_pure] at h

/-- A step that changes nothing may stand in front. -/
theorem Reads.bind {y : Except LoweringError α} {g : α → Except LoweringError δ} (hx : Reads x y)
    (hf : ∀ a, y = .ok a → Agrees R (f a s) (g a)) : Agrees R ((x >>= f) s) (y >>= g) := by
  show Agrees R (x s >>= fun r => f r.1 r.2) (y >>= g)
  rw [hx s]
  cases y with
  | ok a => exact hf a rfl
  | error => exact rfl

end Runs

/-! ### Steps that change nothing -/

section Reads

variable {ctx : Context} {loc : Location}

theorem checkNoMarker_reads (e : Expr) :
    Reads (checkNoMarker ctx loc e) (Sketch.check ctx loc e) := by
  intro s
  unfold checkNoMarker Sketch.check
  cases e.findMarker? ctx.markers <;> rfl

theorem Reads.andThen {α β : Type} {x : Lower α} {y : Except LoweringError α} {f : α → Lower β}
    {g : α → Except LoweringError β} (hx : Reads x y) (hf : ∀ a, Reads (f a) (g a)) :
    Reads (x >>= f) (y >>= g) := by
  intro s
  show (x s >>= fun r => f r.1 r.2) = _
  rw [hx s]
  cases y with
  | ok a => exact hf a s
  | error => rfl

theorem checkAll_reads (es : List Expr) :
    Reads (es.forM (checkNoMarker ctx loc)) (Sketch.checkAll ctx loc es) := by
  induction es with
  | nil => exact fun _ => rfl
  | cons e es ih => exact (checkNoMarker_reads e).andThen fun _ => ih

theorem checkOption_reads (e : Option Expr) :
    Reads (e.forM (checkNoMarker ctx loc)) (Sketch.checkAll ctx loc e.toList) := by
  cases e with
  | none => exact fun _ => rfl
  | some e =>
    have hone : Sketch.checkAll ctx loc [e] = Sketch.check ctx loc e := bind_pure _
    rw [Option.toList_some, hone]
    exact checkNoMarker_reads e

theorem checkAll_append (es fs : List Expr) :
    Sketch.checkAll ctx loc (es ++ fs) =
      (Sketch.checkAll ctx loc es >>= fun _ => Sketch.checkAll ctx loc fs) := by
  induction es with
  | nil => rfl
  | cons e es ih =>
    show (Sketch.check ctx loc e >>= fun _ => Sketch.checkAll ctx loc (es ++ fs)) = _
    rw [ih, Sketch.checkAll, bind_assoc]

theorem checkInits_reads (ds : List LocalDecl) :
    Reads (ds.forM fun d => d.init.forM (checkNoMarker ctx loc) : Lower Unit)
      (Sketch.checkAll ctx loc (ds.flatMap fun d => d.init.toList)) := by
  induction ds with
  | nil => exact fun _ => rfl
  | cons d ds ih =>
    rw [flatMap_cons, checkAll_append]
    exact (checkOption_reads d.init).andThen fun _ => ih

theorem declared_reads (x : Ident) : Reads (declared x) (Sketch.symbolOf x) := by
  intro s
  unfold declared Sketch.symbolOf
  cases x.symbol <;> rfl

theorem breakTarget_reads (label : Option String) :
    Reads (breakTarget ctx label loc)
      (Sketch.need (ctx.breakTag? label) (.unmatchedBreak label loc)) := by
  intro s
  cases label <;> simp only [breakTarget, Context.breakTag?, Context.breakControl?] <;>
    generalize List.find? _ ctx.controls = found <;> cases found <;> rfl

theorem continueTarget_reads (label : Option String) :
    Reads (continueTarget ctx label loc)
      (Sketch.need (ctx.continueTag? label) (.unmatchedContinue label loc)) := by
  intro s
  cases label <;> simp only [continueTarget, Context.continueTag?, Context.continueControl?] <;>
    generalize Option.bind _ Control.continueTag = found <;> cases found <;> rfl

theorem checkLabel_reads (label : String) :
    Reads (Part.checkLabel ctx label loc) (Sketch.checkLabel ctx label loc) := by
  intro s
  unfold Part.checkLabel Sketch.checkLabel
  split <;> rfl

end Reads

namespace Looks

variable {s s' : State} {L L' : Ledger} {v : View} {c : Cursor}
variable (h : Looks s L v)

include h

theorem tidy : v.Tidy := h.view ▸ s.view_tidy

theorem opsAt_eq (c : Cursor) : opsAt s.frame c = v.ops c := by
  rw [← h.view]
  rfl

theorem scopes_eq : s.scopes = L.scopes := by
  rw [← h.ledger]
  rfl

theorem symbols_eq : s.symbols = L.symbols := by
  rw [← h.ledger]
  rfl

/-! ### Ops and states -/

/-- An op is added at the cursor. -/
theorem emit (hc : v.Has c) (op : Op) : Yields (emit c op) s () L (v.put c [op]) := by
  obtain ⟨rfl, rfl⟩ := h
  cases c with
  | state id =>
    obtain ⟨block, hpush⟩ := Block.push_of_le hc.1 hc.2 op
    have hp := Block.push_ok hpush
    refine ⟨{ s with frame := { s.frame with block } }, ?_, ?_, ?_⟩
    · show (s.frame.block.push id op >>= fun b => _) >>= _ = _
      rw [hpush]
      rfl
    · simp only [State.ledger, hp.number, hp.selector, hp.size]
    · ext1
      · exact hp.size
      · rfl
      · funext d
        cases d with
        | state d =>
          by_cases hd : d = id
          · subst hd
            rw [View.ops_put_self]
            exact hp.ops_self
          · rw [View.ops_put_of_ne _ (by simpa using hd)]
            exact hp.ops_other d hd
        | scratch => rfl
      · exact propext hp.numbered
      · rfl
  | scratch i =>
    have hi : i < s.frame.scratch.size := hc
    refine ⟨{ s with frame := { s.frame with scratch := s.frame.scratch.modify i (· ++ [op]) } },
      ?_, rfl, ?_⟩
    · show (if i < s.frame.scratch.size then _ else _ : Lower Unit) s = _
      rw [if_pos hi]
      rfl
    ext1
    · rfl
    · exact Array.size_modify
    · funext d
      cases d with
      | state => rfl
      | scratch d =>
        by_cases hd : d = i
        · subst hd
          simp [State.view, opsAt, Array.getElem?_modify, Array.getElem?_eq_getElem hi]
        · rw [View.ops_put_of_ne _ (by simpa using hd)]
          simp [State.view, opsAt, Array.getElem?_modify, Ne.symm hd]
    · rfl
    · rfl

theorem emitAll (hc : v.Has c) (ops : List Op) : Yields (emitAll c ops) s () L (v.put c ops) := by
  induction ops generalizing s v with
  | nil => exact ⟨s, rfl, (v.put_nil c).symm ▸ h⟩
  | cons op ops ih =>
    rw [← singleton_append, ← View.put_put]
    exact (h.emit hc op).bind fun s₁ h₁ => ih h₁ hc

theorem isTerminal (c : Cursor) : Yields (isTerminal c) s (endsTerminal (v.ops c)) L v :=
  ⟨s, congrArg (fun ops => Except.ok (endsTerminal ops, s)) (h.opsAt_eq c), h⟩

theorem endWith (hc : v.Has c) (op : Op) :
    Yields (endWith c op) s () L (v.put c (Code.sealing (v.ops c) op)) := by
  refine (h.isTerminal c).bind fun s₁ h₁ => ?_
  unfold Code.sealing
  split
  · exact ⟨s₁, rfl, (v.put_nil c).symm ▸ h₁⟩
  · exact h₁.emit hc op

/-- A new buffer holds no ops. -/
theorem newScratch : Yields newScratch s v.buffers L v.openBuffer := by
  obtain ⟨rfl, rfl⟩ := h
  refine ⟨_, rfl, rfl, ?_⟩
  ext1
  · rfl
  · exact Array.size_push ..
  · funext d
    cases d with
    | state => rfl
    | scratch d =>
      show (s.frame.scratch.push [])[d]?.getD [] = s.frame.scratch[d]?.getD []
      rw [Array.getElem?_push]
      split
      · next hd =>
        rw [hd, Array.getElem?_eq_none (Nat.le_refl _)]
        rfl
      · rfl
  · rfl
  · rfl

/-- The buffer opened last is closed. -/
theorem takeScratch {i : Nat} (hi : i + 1 = v.buffers) :
    Yields (takeScratch i) s (v.ops (.scratch i)) L v.closeBuffer := by
  obtain ⟨rfl, rfl⟩ := h
  refine ⟨{ s with frame := { s.frame with scratch := s.frame.scratch.pop } }, ?_, rfl, ?_⟩
  · exact congrArg (fun rest => Except.ok (_, { s with frame := { s.frame with scratch := rest } }))
      (if_pos hi)
  · ext1
    · rfl
    · exact Array.size_pop ..
    · funext d
      cases d with
      | state => rfl
      | scratch d =>
        show s.frame.scratch.pop[d]?.getD [] =
          if Cursor.scratch d = .scratch (s.frame.scratch.size - 1) then []
          else s.frame.scratch[d]?.getD []
        rw [Array.getElem?_pop]
        split
        · next hd => rw [if_neg (by rw [Cursor.scratch.injEq]; omega)]
        · next hd =>
          by_cases hlast : d = s.frame.scratch.size - 1
          · rw [if_pos (by rw [hlast])]
            rfl
          · rw [if_neg (by simpa using hlast), Array.getElem?_eq_none (by omega)]
    · rfl
    · rfl

theorem freshTag : Yields freshTag s (L.tagAt 0) (L.reserve 1) v := by
  obtain ⟨rfl, rfl⟩ := h
  refine ⟨_, rfl, ?_, rfl⟩
  simp [State.ledger, Ledger.reserve, TagTable.reserve]

/-- A tag gets the state that is opened. -/
theorem enterState (tag : Tag) :
    Agrees (fun c s' L' => c = .state ⟨v.size + 1⟩ ∧ Looks s' L' v.openState) (enterState tag s)
      (L.enter tag) := by
  obtain ⟨rfl, rfl⟩ := h
  show Agrees _ ((s.tags.resolve tag ⟨s.frame.block.size + 1⟩ >>= fun t => _) >>= _)
    (s.tags.resolve tag ⟨s.frame.block.size + 1⟩ >>= fun t => _)
  cases s.tags.resolve tag ⟨s.frame.block.size + 1⟩ with
  | error => rfl
  | ok =>
    refine ⟨rfl, ?_, ?_⟩
    · simp [State.ledger, Block.size]
    · ext1
      · exact Array.size_push ..
      · rfl
      · funext d
        cases d with
        | state => exact Block.ops_openState ..
        | scratch => rfl
      · exact propext (Block.openState_numbered _)
      · rfl

/-! ### Fields and scopes -/

theorem capture (symbol : SymbolId) (type : TypeRef) (origin : CaptureOrigin)
    (liveness : Liveness) :
    Yields (capture symbol type origin liveness) s ()
      (L.capture symbol type origin liveness) v := by
  obtain ⟨rfl, rfl⟩ := h
  exact ⟨_, rfl, rfl, rfl⟩

theorem dropAtScopeEnd (symbol : SymbolId) :
    Yields (dropAtScopeEnd symbol) s () (L.dropAtScopeEnd symbol) v := by
  obtain ⟨rfl, rfl⟩ := h
  obtain ⟨symbols, tags, captures, frame, outers, scopes, nextMachine⟩ := s
  cases scopes with
  | nil | cons => exact ⟨_, rfl, rfl, rfl⟩

theorem dropIfCleared (ctx : Context) (symbol : SymbolId) (type : TypeRef) :
    Yields (if livenessOf ctx type = .clearedAtScopeEnd then Lowering.dropAtScopeEnd symbol
      else pure ()) s ()
      (L.dropIfCleared ctx symbol type) v := by
  unfold Ledger.dropIfCleared
  split
  · exact h.dropAtScopeEnd symbol
  · exact ⟨s, rfl, h⟩

theorem captureLocal (ctx : Context) (symbol : SymbolId) (type : TypeRef) :
    Yields (captureLocal ctx symbol type) s () (L.captureLocal ctx symbol type) v :=
  (h.capture symbol type .localVar (livenessOf ctx type)).bind fun _ h₁ =>
    h₁.dropIfCleared ctx symbol type

theorem newSymbol (name : String) (type : TypeRef) :
    Yields (newSymbol name type) s L.nextSymbol (L.newSymbol name type) v := by
  obtain ⟨rfl, rfl⟩ := h
  exact ⟨_, rfl, rfl, rfl⟩

theorem newField (ctx : Context) (name : String) (type : TypeRef) (origin : CaptureOrigin) :
    Yields (newField ctx name type origin) s L.nextSymbol (L.newField ctx name type origin) v :=
  (h.newSymbol name type).bind fun _ h₁ =>
    (h₁.capture L.nextSymbol type origin (livenessOf ctx type)).bind fun s₂ h₂ => ⟨s₂, rfl, h₂⟩

theorem pushScope : Looks { s with scopes := [] :: s.scopes } L.pushScope v := by
  obtain ⟨rfl, rfl⟩ := h
  exact ⟨rfl, rfl⟩

theorem popScope : Looks { s with scopes := s.scopes.tail } L.popScope v := by
  obtain ⟨rfl, rfl⟩ := h
  exact ⟨rfl, rfl⟩

/-! ### Transfers -/

/-- A transfer within the machine, or one that leaves its tag in a field. -/
theorem transferOps (ctx : Context) (tag : Tag) :
    Agrees (fun ops s' r => ops = r.1 ∧ Looks s' r.2 v) (transferOps ctx tag s)
      (L.route ctx tag) := by
  obtain ⟨rfl, rfl⟩ := h
  obtain ⟨symbols, tags, captures, ⟨block, scratch, exits, pendingJump, base⟩, outers,
      scopes, next⟩ := s
  show Agrees _ ((if tags.owner tag = block.id then _ else _ : Lower (List Op)) _)
    (if tags.owner tag = block.id then _ else _)
  by_cases howner : tags.owner tag = block.id
  · rw [if_pos howner, if_pos howner]
    exact ⟨rfl, rfl, rfl⟩
  · rw [if_neg howner, if_neg howner]
    cases pendingJump with
    | none => rfl
    | some =>
      refine ⟨rfl, ?_⟩
      by_cases htag : exits.contains tag = true
      · simp only [State.ledger, htag, if_true]
        exact ⟨rfl, rfl⟩
      · rw [Bool.not_eq_true] at htag
        simp only [State.ledger, htag]
        exact ⟨rfl, rfl⟩

end Looks

end Lowering

end Resumable
