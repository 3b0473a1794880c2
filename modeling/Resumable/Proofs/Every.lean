import Resumable.Proofs.Built
import Resumable.Proofs.Nesting

/-!
# What holds of every op

A property of single ops, of which each op is looked at on its own, is carried over to all ops of a
class.

* `Op.inside` are all ops in an op at any depth;
* `Op.Every` says that an op and all ops in it at any depth have the property; it looks into nested
  machines as well;
* `Op.plains` are the plain statements of an op, and `Machine.every_plains` says that a property of
  all ops is known if it is known of these;
* `Phrase.parts` are the statements that a phrase consists of;
* `Code.Every` says it of code, and there is one lemma for each piece of code that lowering puts
  together out of ops of its own: transfers, loops, branches and guards.
-/

namespace Resumable

open List

/-! ## Ops -/

mutual

/-- The op and all ops in it at any depth, but for those of nested machines. -/
def Op.inside : Op → List Op
  | .cond test yes no => .cond test yes no :: (insideOps yes ++ insideOps no)
  | .synchronized x body => .synchronized x body :: insideOps body
  | op => [op]

/-- All ops in ops at any depth, but for those of nested machines. -/
def insideOps : List Op → List Op
  | [] => []
  | op :: ops => op.inside ++ insideOps ops

end

/-- All ops of a machine, at any depth. -/
def Machine.ops (m : Machine) : List Op := m.states.flatMap fun s => insideOps s.ops

mutual

/-- The op and all ops in it at any depth, those of nested machines included, have the property. -/
def Op.Every (P : Op → Prop) : Op → Prop
  | .cond test yes no => P (.cond test yes no) ∧ EveryOp P yes ∧ EveryOp P no
  | .synchronized x body => P (.synchronized x body) ∧ EveryOp P body
  | .guarded machine fields => P (.guarded machine fields) ∧ machine.Every P
  | op => P op

/-- All ops have the property. -/
def EveryOp (P : Op → Prop) : List Op → Prop
  | [] => True
  | op :: ops => op.Every P ∧ EveryOp P ops

/-- All ops of the states have the property. -/
def EveryState (P : Op → Prop) : List MachineState → Prop
  | [] => True
  | .mk _ ops :: states => EveryOp P ops ∧ EveryState P states

/-- All ops of the machine have the property. -/
def Machine.Every (P : Op → Prop) : Machine → Prop
  | .mk _ _ states => EveryState P states

end

/-- A statement that is run as it stands. -/
def Op.isPlain : Op → Bool
  | .plain _ => true
  | _ => false

section Ops

variable {P : Op → Prop} {a b : List Op}

theorem everyOp_append : EveryOp P (a ++ b) ↔ EveryOp P a ∧ EveryOp P b := by
  induction a with
  | nil => simp [EveryOp]
  | cons op a ih => rw [cons_append, EveryOp, EveryOp, ih, and_assoc]

theorem everyOp_map {α : Type} {f : α → Op} {xs : List α} (h : ∀ x ∈ xs, (f x).Every P) :
    EveryOp P (xs.map f) := by
  induction xs with
  | nil => trivial
  | cons x xs ih =>
    obtain ⟨hx, hxs⟩ := forall_mem_cons.mp h
    exact ⟨hx, ih hxs⟩

theorem Op.Every.self {op : Op} (h : op.Every P) : P op := by
  cases op with
  | cond | synchronized | guarded => exact h.1
  | _ => exact h

mutual

/-- The property goes over to the ops in an op. -/
theorem Op.Every.inside {op : Op} (h : op.Every P) : ∀ o ∈ op.inside, o.Every P := by
  cases op with
  | cond =>
    intro o ho
    rcases mem_cons.mp ho with rfl | ho
    · exact h
    · exact (mem_append.mp ho).elim (EveryOp.inside h.2.1 o) (EveryOp.inside h.2.2 o)
  | synchronized => exact forall_mem_cons.mpr ⟨h, EveryOp.inside h.2⟩
  | _ => exact fun o ho => mem_singleton.mp ho ▸ h

theorem EveryOp.inside {ops : List Op} (h : EveryOp P ops) : ∀ o ∈ insideOps ops, o.Every P := by
  cases ops with
  | nil => exact nofun
  | cons => exact fun o ho => (mem_append.mp ho).elim (Op.Every.inside h.1 o) (EveryOp.inside h.2 o)

end

mutual

/-- The property goes over to nested machines. -/
theorem Machine.Every.machines {M : Machine} (h : M.Every P) : ∀ m ∈ M.machines, m.Every P := by
  obtain ⟨id, selector, states⟩ := M
  exact forall_mem_cons.mpr ⟨h, EveryState.machines h⟩

theorem EveryState.machines {states : List MachineState} (h : EveryState P states) :
    ∀ m ∈ machinesInStates states, m.Every P := by
  cases states with
  | nil => exact nofun
  | cons state =>
    obtain ⟨id, ops⟩ := state
    exact fun m hm => (mem_append.mp hm).elim (EveryOp.machines h.1 m) (EveryState.machines h.2 m)

theorem EveryOp.machines {ops : List Op} (h : EveryOp P ops) :
    ∀ m ∈ machinesInOps ops, m.Every P := by
  cases ops with
  | nil => exact nofun
  | cons =>
    exact fun m hm => (mem_append.mp hm).elim (Op.Every.machines h.1 m) (EveryOp.machines h.2 m)

theorem Op.Every.machines {op : Op} (h : op.Every P) : ∀ m ∈ machinesInOp op, m.Every P := by
  cases op with
  | cond =>
    exact fun m hm => (mem_append.mp hm).elim (EveryOp.machines h.2.1 m) (EveryOp.machines h.2.2 m)
  | synchronized => exact EveryOp.machines h.2
  | guarded => exact Machine.Every.machines h.2
  | _ => exact nofun

end

mutual

/-- A weaker property holds as well. -/
theorem Op.Every.imp {Q : Op → Prop} (hPQ : ∀ op, P op → Q op) {op : Op} (h : op.Every P) :
    op.Every Q := by
  cases op with
  | cond => exact ⟨hPQ _ h.1, EveryOp.imp hPQ h.2.1, EveryOp.imp hPQ h.2.2⟩
  | synchronized => exact ⟨hPQ _ h.1, EveryOp.imp hPQ h.2⟩
  | guarded => exact ⟨hPQ _ h.1, Machine.Every.imp hPQ h.2⟩
  | _ => exact hPQ _ h

theorem EveryOp.imp {Q : Op → Prop} (hPQ : ∀ op, P op → Q op) {ops : List Op} (h : EveryOp P ops) :
    EveryOp Q ops := by
  cases ops with
  | nil => trivial
  | cons => exact ⟨Op.Every.imp hPQ h.1, EveryOp.imp hPQ h.2⟩

theorem EveryState.imp {Q : Op → Prop} (hPQ : ∀ op, P op → Q op) {states : List MachineState}
    (h : EveryState P states) : EveryState Q states := by
  cases states with
  | nil => trivial
  | cons state =>
    obtain ⟨id, ops⟩ := state
    exact ⟨EveryOp.imp hPQ h.1, EveryState.imp hPQ h.2⟩

theorem Machine.Every.imp {Q : Op → Prop} (hPQ : ∀ op, P op → Q op) {M : Machine} (h : M.Every P) :
    M.Every Q := by
  obtain ⟨id, selector, states⟩ := M
  exact EveryState.imp hPQ h

end

theorem EveryState.ops {states : List MachineState} (h : EveryState P states) :
    ∀ s ∈ states, EveryOp P s.ops := by
  induction states with
  | nil => exact nofun
  | cons state states ih =>
    obtain ⟨id, ops⟩ := state
    exact forall_mem_cons.mpr ⟨h.1, ih h.2⟩

/-- All ops of all machines have the property. -/
theorem Machine.Every.ops {M : Machine} (h : M.Every P) : ∀ m ∈ M.machines, ∀ op ∈ m.ops, P op := by
  intro m hm op hop
  have hm' := Machine.Every.machines h m hm
  obtain ⟨id, selector, states⟩ := m
  obtain ⟨s, hs, hop⟩ := mem_flatMap.mp hop
  exact ((EveryState.ops hm' s hs).inside op hop).self

end Ops

/-! ## Plain statements -/

mutual

/-- The plain statements of an op and of all ops in it, in order. -/
def Op.plains : Op → List Stmt
  | .plain s => [s]
  | .cond _ yes no => plainsOps yes ++ plainsOps no
  | .synchronized _ body => plainsOps body
  | .guarded machine _ => machine.plains
  | _ => []

/-- The plain statements of ops, in order. -/
def plainsOps : List Op → List Stmt
  | [] => []
  | op :: ops => op.plains ++ plainsOps ops

/-- The plain statements of states, in order. -/
def plainsStates : List MachineState → List Stmt
  | [] => []
  | .mk _ ops :: states => plainsOps ops ++ plainsStates states

/-- The plain statements of a machine, in order. -/
def Machine.plains : Machine → List Stmt
  | .mk _ _ states => plainsStates states

end

section Plains

variable {Q : Stmt → Prop}

mutual

/-- What holds of the plain statements is what holds of the ops that are plain statements. -/
theorem Op.every_plains (op : Op) :
    (op.Every fun o => ∀ s, o = .plain s → Q s) ↔ ∀ s ∈ op.plains, Q s := by
  cases op with
  | cond _ yes no =>
    simp [Op.Every, Op.plains, everyOp_plains yes, everyOp_plains no, or_imp, forall_and]
  | synchronized _ body => simp [Op.Every, Op.plains, everyOp_plains body]
  | guarded machine => simp [Op.Every, Op.plains, machine.every_plains]
  | _ => simp [Op.Every, Op.plains]

theorem everyOp_plains (ops : List Op) :
    EveryOp (fun o => ∀ s, o = .plain s → Q s) ops ↔ ∀ s ∈ plainsOps ops, Q s := by
  cases ops with
  | nil => simp [EveryOp, plainsOps]
  | cons op ops => rw [EveryOp, plainsOps, forall_mem_append, op.every_plains, everyOp_plains ops]

theorem everyState_plains (states : List MachineState) :
    EveryState (fun o => ∀ s, o = .plain s → Q s) states ↔ ∀ s ∈ plainsStates states, Q s := by
  cases states with
  | nil => simp [EveryState, plainsStates]
  | cons state states =>
    obtain ⟨id, ops⟩ := state
    rw [EveryState, plainsStates, forall_mem_append, everyOp_plains ops, everyState_plains states]

theorem Machine.every_plains (M : Machine) :
    (M.Every fun o => ∀ s, o = .plain s → Q s) ↔ ∀ s ∈ M.plains, Q s := by
  obtain ⟨id, selector, states⟩ := M
  exact everyState_plains states

end

theorem Machine.every_of_forall {P : Op → Prop} (h : ∀ op, P op) (M : Machine) : M.Every P :=
  ((M.every_plains (Q := fun _ => True)).mpr fun _ _ => trivial).imp fun op _ => h op

theorem Machine.mem_machines_self (M : Machine) : M ∈ M.machines := by
  obtain ⟨id, selector, states⟩ := M
  exact mem_cons_self

/-- The plain statements that are ops of machines are those of the machine around them. -/
theorem Machine.mem_plains {A M : Machine} {s : Stmt} (hM : M ∈ A.machines)
    (hs : .plain s ∈ M.ops) : s ∈ A.plains :=
  (A.every_plains.mpr fun _ ht => ht).ops M hM _ hs s rfl

theorem plainsOps_append (a b : List Op) : plainsOps (a ++ b) = plainsOps a ++ plainsOps b := by
  induction a with
  | nil => rfl
  | cons op a ih => rw [cons_append, plainsOps, plainsOps, ih, List.append_assoc]

/-- Ops none of which is a plain statement have no plain statements. -/
theorem EveryOp.plains_eq_nil {ops : List Op} (h : EveryOp (fun op => op.isPlain = false) ops) :
    plainsOps ops = [] := by
  refine eq_nil_iff_forall_not_mem.mpr ((everyOp_plains ops).mp (h.imp ?_))
  rintro _ hop s rfl
  cases hop

end Plains

namespace Lowering

/-! ## Code -/

/-- All ops of code have the property. -/
structure Code.Every (P : Op → Prop) (c : Code) : Prop where
  ops : EveryOp P c.ops
  states : ∀ s ∈ c.states, EveryOp P s

/-- The property holds of all ops that only move on. -/
structure Moves (P : Op → Prop) : Prop where
  setState : ∀ tag, P (.setState tag)
  jump : ∀ tag, P (.jump tag)
  finish : P .finish

namespace Code.Every

variable {P : Op → Prop} {a b c : Code} {ops : List Op}

theorem now (h : EveryOp P ops) : Code.Every P (.now ops) where
  ops := h
  states := nofun

theorem opened : Code.Every P .opened where
  ops := trivial
  states := fun s hs => by
    rw [mem_singleton.mp hs]
    trivial

/-- Code behind code. -/
theorem append (ha : a.Every P) (hb : b.Every P) : (a ++ b).Every P := by
  obtain ⟨ops, ss⟩ := a
  induction ss generalizing ops with
  | nil => exact ⟨everyOp_append.mpr ⟨ha.ops, hb.ops⟩, hb.states⟩
  | cons s ss ih =>
    obtain ⟨hs, hss⟩ := forall_mem_cons.mp ha.states
    have hrest := ih s ⟨hs, hss⟩
    exact ⟨ha.ops, forall_mem_cons.mpr ⟨hrest.ops, hrest.states⟩⟩

theorem sealing (op : Op) (hop : op.Every P) (cur : List Op) : EveryOp P (Code.sealing cur op) := by
  unfold Code.sealing
  split
  · trivial
  · exact ⟨hop, trivial⟩

theorem jump (h : c.Every P) (hmoves : Moves P) (cur : List Op) (tag : Tag) :
    (c.sealed cur (.jump tag)).Every P :=
  h.append (.now (sealing (.jump tag) (hmoves.jump tag) _))

theorem finish (h : c.Every P) (hmoves : Moves P) (cur : List Op) :
    (c.sealed cur .finish).Every P :=
  h.append (.now (sealing .finish hmoves.finish _))

/-- A machine that consists of the code. -/
theorem machine (h : c.Every P) (id : MachineId) (selector : SymbolId) :
    (c.machine id selector).Every P := by
  have hstates : ∀ (ss : List (List Op)) (n : Nat), (∀ s ∈ ss, EveryOp P s) →
      EveryState P (numbered n ss) := by
    intro ss
    induction ss with
    | nil => exact fun _ _ => trivial
    | cons s ss ih =>
      intro n hss
      obtain ⟨hs, hss⟩ := forall_mem_cons.mp hss
      exact ⟨hs, ih (n + 1) hss⟩
  exact hstates _ 1 (forall_mem_cons.mpr ⟨h.ops, h.states⟩)

end Code.Every

/-! ## Phrases -/

/-- The statements that a phrase consists of. -/
def Phrase.parts : Phrase → List Stmt
  | stmt s => [s]
  | stmts ss => ss
  | scope p => p.parts
  | branch s => s.toList
  | head _ s => [s]
  | counting _ init _ _ _ body => init ++ [body]
  | each _ _ _ _ body => [body]
  | loop _ _ body => [body]
  | choice _ cs => cs.flatMap SwitchCase.body
  | cases _ cs => cs.flatMap fun c => c.1.body
  | opening _ body => body
  | handler _ _ body => body
  | handlers cs _ => cs.flatMap CatchClause.body
  | guarded _ body cs _ => body ++ cs.flatMap CatchClause.body
  | final body => body.getD []

/-- What stands in a statement of the body stands in the body. -/
theorem forall_lies_children {body : List Stmt} {s : Stmt}
    (hs : ∀ t ∈ [s], ∃ path, Lies body path t) : ∀ t ∈ s.children, ∃ path, Lies body path t := by
  obtain ⟨path, hlies⟩ := hs s mem_cons_self
  exact fun t ht => ⟨s :: path, .inner hlies ht⟩

theorem fst_zip_caseTags (L : Ledger) (cs : List SwitchCase) :
    (cs.zip (L.caseTags cs.length)).map Prod.fst = cs :=
  map_fst_zip (by simp [Ledger.caseTags])

/-- Tags do not change what cases consist of. -/
theorem parts_cases (L : Ledger) (endTag : Tag) (selector : Expr) (cs : List SwitchCase) :
    (Phrase.cases endTag (cs.zip (L.caseTags cs.length))).parts =
    (Phrase.choice selector cs).parts := by
  show _ = cs.flatMap SwitchCase.body
  conv_rhs => rw [← fst_zip_caseTags L cs, flatMap_map]
  rfl

/-! ## Pieces of code -/

section Pieces

variable {P : Op → Prop} {ctx : Context} {L L' : Ledger} {cur ops : List Op} {code : Code}

theorem every_clears {xs : List SymbolId} (h : ∀ x ∈ xs, P (.clear x)) :
    EveryOp P (xs.map Op.clear) := everyOp_map h

theorem every_inits {x : SymbolId} {init : Option Expr} (h : ∀ e ∈ init, P (.assign x e)) :
    Code.Every P (.now (init.toList.map (Op.assign x))) :=
  .now (everyOp_map fun e he => h e (Option.mem_toList.mp he))

/-- Resources get their first values. -/
theorem every_initOps {resources : List (SymbolId × Option Expr)}
    (h : ∀ r ∈ resources, ∀ e ∈ r.2, P (.assign r.1 e)) :
    Code.Every P (.now (initOps resources)) := by
  induction resources with
  | nil => exact .now trivial
  | cons r resources ih =>
    obtain ⟨hr, hresources⟩ := forall_mem_cons.mp h
    have happend := (every_inits hr).append (ih hresources)
    rwa [Code.now_append] at happend

variable (hmoves : Moves P)

include hmoves

variable {tag : Tag} {g : Ledger.GuardNames} {shape : Part.LoopShape}

section Routes

variable (hclear : ∀ x ∈ L.scopes.flatten, P (.clear x))
  (hpark : ∀ field, L.pendingJump = some field → ∀ n, P (.assign field (.int n)))

include hclear hpark

/-- A transfer drops fields of scopes, and leaves a tag in the field for it. -/
theorem every_route (h : L.route ctx tag = .ok (ops, L')) : EveryOp P ops := by
  have hclears : EveryOp P (L.exitClears ctx tag) := by
    refine every_clears fun x hx => hclear x ?_
    obtain ⟨scope, hscope, hx⟩ := mem_flatten.mp hx
    exact mem_flatten.mpr ⟨scope, mem_of_mem_take hscope, hx⟩
  unfold Ledger.route at h
  split at h
  · cases h
    refine everyOp_append.mpr ⟨hclears, ?_, trivial⟩
    split
    · exact hmoves.finish
    · exact hmoves.jump tag
  · split at h
    · cases h
    · next field hfield =>
      cases h
      exact everyOp_append.mpr ⟨hclears, hpark field hfield _, hmoves.finish, trivial⟩

theorem every_routeAll {field : SymbolId} {tags : List Tag}
    (htest : ∀ x : Ident, x.symbol = some field → ∀ n yes,
      P (.cond (.binary .eq (.ident x) (.int n)) yes []))
    (h : L.routeAll ctx field tags = .ok (ops, L')) : EveryOp P ops := by
  induction tags generalizing L ops with
  | nil =>
    cases h
    trivial
  | cons tag tags ih =>
    obtain ⟨first, L₁, more, hfirst, hmore, rfl⟩ := Ledger.routeAll_ok h
    obtain ⟨exits, -, rfl⟩ := Ledger.route_ok hfirst
    exact ⟨⟨htest _ rfl _ _, every_route hmoves hclear hpark hfirst, trivial⟩,
      ih (L := { L with exits := exits }) hclear hpark hmore⟩

/-- The end of final code passes on what waits. -/
theorem every_settle
    (htest : ∀ x : Ident, x.symbol = some g.pendingJump → ∀ n yes,
      P (.cond (.binary .eq (.ident x) (.int n)) yes []))
    (hrethrow : P (.rethrow g.pending)) {exits : List Tag}
    (h : settleOps L ctx cur g exits = .ok (ops, L')) : EveryOp P ops := by
  unfold settleOps at h
  split at h
  · cases h
    trivial
  · obtain ⟨⟨more, L₁⟩, hroute, h⟩ := exists_of_bind_ok h
    cases h
    exact ⟨hrethrow, every_routeAll hmoves hclear hpark htest hroute⟩

end Routes

/-- Behind the body of a loop stand its updates, its test and a state without ops. -/
theorem every_tail {loc : Location} (htest : ∀ e, shape.test = some e → ∀ yes, P (.cond e yes []))
    (hupdate : ∀ e ∈ shape.update, P (.plain (.expr e loc))) :
    Code.Every P ⟨[], shape.tail loc L⟩ := by
  have htests : EveryOp P (shape.testOps L) := by
    unfold Part.LoopShape.testOps
    split
    · next e he => exact ⟨⟨htest e he _, ⟨hmoves.jump _, trivial⟩, trivial⟩, hmoves.jump _, trivial⟩
    · exact ⟨hmoves.jump _, trivial⟩
  have hupdates : EveryOp P (shape.updateOps loc L) :=
    everyOp_append.mpr ⟨everyOp_map hupdate, hmoves.jump _, trivial⟩
  refine ⟨trivial, fun s hs => ?_⟩
  rcases mem_append.mp hs with hs | hs
  · split at hs
    · cases hs
    · rw [mem_singleton.mp hs]
      exact hupdates
  · rcases mem_cons.mp hs with rfl | hs
    · exact htests
    · rw [mem_singleton.mp hs]
      trivial

/-- Branches that leave the state are ended with jumps. -/
theorem every_split {test : Expr} {Y N : Code} (htest : ∀ yes no, P (.cond test yes no))
    (hY : Y.Every P) (hN : N.Every P) :
    Code.Every P (Code.sealed cur
      (.now [.cond test (Y.sealed [] (.jump tag)).ops (N.sealed [] (.jump tag)).ops])
          (.jump tag) ++
        ⟨[], (Y.sealed [] (.jump tag)).states ++ (N.sealed [] (.jump tag)).states ++ [[]]⟩) := by
  have hY' := hY.jump hmoves [] tag
  have hN' := hN.jump hmoves [] tag
  have hchoice : Code.Every P
      (.now [.cond test (Y.sealed [] (.jump tag)).ops (N.sealed [] (.jump tag)).ops]) :=
    .now ⟨⟨htest _ _, hY'.ops, hN'.ops⟩, trivial⟩
  refine (hchoice.jump hmoves cur tag).append ⟨trivial, fun s hs => ?_⟩
  rcases mem_append.mp hs with hs | hs
  · exact (mem_append.mp hs).elim (hY'.states s) (hN'.states s)
  · rw [mem_singleton.mp hs]
    trivial

/-- A loop is entered with a jump, and so is each of its rounds. -/
theorem every_loop {loc : Location} (hcode : code.Every P)
    (hstart : EveryOp P shape.start) (htest : ∀ e, shape.test = some e → ∀ yes, P (.cond e yes []))
    (hupdate : ∀ e ∈ shape.update, P (.plain (.expr e loc))) :
    Code.Every P (.now (Code.sealing cur (.jump (shape.entry L))) ++ .opened ++ .now shape.start ++
      code.sealed shape.start (.jump (shape.again L)) ++ ⟨[], shape.tail loc L⟩) := by
  have hentry : Code.Every P (.now (Code.sealing cur (.jump (shape.entry L)))) :=
    .now (Code.Every.sealing (.jump _) (hmoves.jump _) _)
  have hbody := hcode.jump hmoves shape.start (shape.again L)
  exact (((hentry.append .opened).append (.now hstart)).append hbody).append
    (every_tail hmoves htest hupdate)

/-- A guard is reset, run and left, and the final code runs behind it. -/
theorem every_tryCatch {xs : List SymbolId} {hs : List Handler} {inner X : Code} {tag' endTag : Tag}
    {m : MachineId} (hreset : ∀ x ∈ g.selector :: g.inHandler :: g.pending :: g.pendingJump :: xs,
      ∀ l, P (.assign x (.literal l))) (hguard : P (g.op m xs hs inner))
    (hinner : inner.Every P) (hX : X.Every P) :
    Code.Every P (.now (g.reset xs ++ [.jump tag]) ++ .opened ++
      .now [g.op m xs hs inner, .jump tag'] ++ .opened ++ Code.sealed [] X (.jump endTag) ++
        .opened) := by
  simp only [forall_mem_cons] at hreset
  obtain ⟨hselector, hhandler, hpending, hjump, hxs⟩ := hreset
  have hresets : EveryOp P (g.reset xs ++ [.jump tag]) := by
    refine everyOp_append.mpr ⟨everyOp_append.mpr ⟨?_, everyOp_map fun x hx => hxs x hx _⟩,
      hmoves.jump tag, trivial⟩
    exact ⟨hselector _, hhandler _, hpending _, hjump _, trivial⟩
  have hguards : EveryOp P [g.op m xs hs inner, .jump tag'] :=
    ⟨⟨hguard, hinner.machine m g.selector⟩, hmoves.jump tag', trivial⟩
  exact (((((Code.Every.now hresets).append .opened).append (.now hguards)).append .opened).append
    (hX.jump hmoves [] endTag)).append .opened

theorem every_choose {selector : Expr} {arms : List SwitchArm}
    (h : P (.switch selector arms)) : EveryOp P (chooseOps selector arms tag) := by
  refine ⟨h, ?_⟩
  split
  · trivial
  · exact ⟨hmoves.jump tag, trivial⟩

end Pieces

end Lowering

end Resumable
