import Mathlib.Algebra.BigOperators.Group.List.Basic
import Mathlib.Algebra.Group.Prod
import Mathlib.Algebra.Order.Group.Multiset
import Mathlib.Tactic.Abel
import Resumable.Proofs.Fields
import Resumable.Proofs.Governed
import Resumable.Proofs.Markers

/-!
# Nothing is lost and nothing is copied

Lowering moves code through buffers, nested machines and states behind one another. This file counts
what is in the ops of a class, and compares it with what is in the body of the procedure.

* `Stmt.total` and `Machine.total` add up a quantity over a statement and over a machine, at any
  depth;
* `SymbolTable.written` are the expressions that mention no variable that lowering added, `Op.tally`
  those of an op together with the number of its yields, and `Stmt.tally` those of a statement with
  the number of its markers;
* `Made.tally`: code holds what its phrase holds, and one reset for each resource of a guard.
-/

namespace Resumable

open List

/-! ## Totals of statements -/

namespace Stmt

section Total

variable {α β : Type} [AddCommMonoid α] [AddCommMonoid β]

/-- The sum of a quantity over a statement and all statements in it. -/
def total (f : Stmt → α) (s : Stmt) : α := f s + (s.children.attach.map fun t => total f t.1).sum
termination_by s.size
decreasing_by exact size_of_mem_children t.2

/-- The sum of a quantity over statements and all statements in them. -/
def totalAll (f : Stmt → α) (ss : List Stmt) : α := (ss.map (total f)).sum

/-- A statement counts for itself and for what stands in it. -/
theorem total_eq (f : Stmt → α) (s : Stmt) : total f s = f s + totalAll f s.children := by
  rw [total, totalAll]
  exact congrArg (fun ts => f s + List.sum ts) (attach_map_val ..)

@[simp] theorem totalAll_nil (f : Stmt → α) : totalAll f [] = 0 := rfl

@[simp] theorem totalAll_cons (f : Stmt → α) (s : Stmt) (ss : List Stmt) :
    totalAll f (s :: ss) = total f s + totalAll f ss := sum_cons

@[simp] theorem totalAll_append (f : Stmt → α) (ss ts : List Stmt) :
    totalAll f (ss ++ ts) = totalAll f ss + totalAll f ts := by
  rw [totalAll, map_append, sum_append]
  rfl

theorem totalAll_singleton (f : Stmt → α) (s : Stmt) :
    totalAll f [s] = f s + totalAll f s.children := by
  rw [totalAll_cons, totalAll_nil, add_zero, total_eq]

/-- A homomorphism takes the total to that of a quantity that agrees with the image of the first one
wherever a statement stands. -/
theorem map_totalAll (g : α →+ β) {f : Stmt → α} {f' : Stmt → β} {ss : List Stmt}
    (h : ∀ path t, Lies ss path t → g (f t) = f' t) : g (totalAll f ss) = totalAll f' ss := by
  have hone : ∀ s : Stmt, (∀ path t, Lies [s] path t → g (f t) = f' t) →
      g (total f s) = total f' s := by
    refine induct fun s ih hs => ?_
    rw [total_eq, total_eq, map_add, hs [] s (.top mem_cons_self), totalAll, totalAll,
      map_list_sum, map_map]
    congr 2
    refine map_congr_left fun t ht => ih [] t (.top ht) fun path u hu => ?_
    obtain ⟨outer, hu⟩ := Lies.inside (.inner (.top mem_cons_self) ht) hu
    exact hs outer u hu
  rw [totalAll, totalAll, map_list_sum, map_map]
  congr 1
  refine map_congr_left fun s hs => hone s fun path t ht => h path t (ht.mono fun u hu => ?_)
  exact mem_singleton.mp hu ▸ hs

/-- A quantity that does not look at symbols has the same total without them. -/
theorem totalAll_unresolved {f : Stmt → α} (h : ∀ s : Stmt, f s.unresolved = f s) (ss : List Stmt) :
    totalAll f (unresolvedAll ss) = totalAll f ss := by
  have hone : ∀ s : Stmt, total f s.unresolved = total f s := by
    refine induct fun s ih => ?_
    rw [total_eq, total_eq, h, children_unresolved, totalAll, totalAll, map_map]
    congr 2
    exact map_congr_left fun t ht => ih [] t (.top ht)
  rw [unresolvedAll_eq_map, totalAll, totalAll, map_map]
  congr 1
  exact map_congr_left fun s _ => hone s

end Total

end Stmt

/-! ## Totals of machines -/

section Total

variable {α β : Type} [AddCommMonoid α] [AddCommMonoid β]

mutual

/-- The sum of a quantity over an op and all ops in it, those of nested machines included. -/
def Op.total (w : Op → α) : Op → α
  | .cond test yes no => w (.cond test yes no) + (totalOps w yes + totalOps w no)
  | .synchronized lock body => w (.synchronized lock body) + totalOps w body
  | .guarded machine fields => w (.guarded machine fields) + machine.total w
  | op => w op

/-- The sum of a quantity over ops. -/
def totalOps (w : Op → α) : List Op → α
  | [] => 0
  | op :: ops => op.total w + totalOps w ops

/-- The sum of a quantity over the ops of states. -/
def totalStates (w : Op → α) : List MachineState → α
  | [] => 0
  | .mk _ ops :: states => totalOps w ops + totalStates w states

/-- The sum of a quantity over the ops of a machine. -/
def Machine.total (w : Op → α) : Machine → α
  | .mk _ _ states => totalStates w states

end

@[simp] theorem totalOps_append (w : Op → α) (a b : List Op) :
    totalOps w (a ++ b) = totalOps w a + totalOps w b := by
  induction a with
  | nil => rw [nil_append, totalOps, zero_add]
  | cons op a ih => rw [cons_append, totalOps, totalOps, ih, add_assoc]

section Images

variable {g : α →+ β} {w : Op → α} {w' : Op → β}

mutual

/-- A homomorphism takes the total to that of a quantity that agrees with the image of the first one
on every op. -/
theorem Op.Every.map_total {op : Op} (h : op.Every fun o => g (w o) = w' o) :
    g (op.total w) = op.total w' := by
  cases op with
  | cond =>
    rw [Op.total, Op.total, map_add, map_add, h.1, EveryOp.map_total h.2.1, EveryOp.map_total h.2.2]
  | synchronized => rw [Op.total, Op.total, map_add, h.1, EveryOp.map_total h.2]
  | guarded => rw [Op.total, Op.total, map_add, h.1, Machine.Every.map_total h.2]
  | _ => exact h

theorem EveryOp.map_total {ops : List Op} (h : EveryOp (fun o => g (w o) = w' o) ops) :
    g (totalOps w ops) = totalOps w' ops := by
  cases ops with
  | nil => exact map_zero g
  | cons => rw [totalOps, totalOps, map_add, Op.Every.map_total h.1, EveryOp.map_total h.2]

theorem EveryState.map_total {states : List MachineState}
    (h : EveryState (fun o => g (w o) = w' o) states) :
    g (totalStates w states) = totalStates w' states := by
  match states with
  | [] => exact map_zero g
  | .mk _ ops :: states =>
    rw [totalStates, totalStates, map_add, EveryOp.map_total h.1, EveryState.map_total h.2]

theorem Machine.Every.map_total {M : Machine} (h : M.Every fun o => g (w o) = w' o) :
    g (M.total w) = M.total w' := by
  obtain ⟨_, _, states⟩ := M
  exact EveryState.map_total h

end

theorem Machine.map_total (g : α →+ β) (w : Op → α) (M : Machine) :
    g (M.total w) = M.total fun o => g (w o) :=
  (M.every_of_forall fun _ => rfl).map_total

/-- Ops each of which counts for nothing count for nothing together. -/
theorem EveryOp.total_eq_zero {ops : List Op} (h : EveryOp (fun o => w o = 0) ops) :
    totalOps w ops = 0 :=
  (EveryOp.map_total (g := (0 : α →+ α)) (w := w) (h.imp fun _ ho => ho.symm)).symm

end Images

namespace Lowering

/-- The sum of a quantity over code. -/
def Code.total (w : Op → α) (c : Code) : α := totalOps w c.ops + (c.states.map (totalOps w)).sum

namespace Code

variable (w : Op → α)

@[simp] theorem total_now (ops : List Op) : (now ops).total w = totalOps w ops := add_zero _

@[simp] theorem total_opened : opened.total w = 0 := by
  rw [total, opened, map_singleton, sum_singleton, totalOps, add_zero]

theorem total_states (ss : List (List Op)) :
    total w ⟨[], ss⟩ = (ss.map (totalOps w)).sum := zero_add _

/-- Code behind code counts for both. -/
@[simp] theorem total_append (a b : Code) : (a ++ b).total w = a.total w + b.total w := by
  obtain ⟨ops, ss⟩ := a
  induction ss generalizing ops with
  | nil =>
    rw [mk_nil_append, total, total, totalOps_append, map_nil, sum_nil, add_zero, add_assoc]; rfl
  | cons s ss ih =>
    have hrest := ih s
    rw [total] at hrest
    rw [mk_cons_append, total, map_cons, sum_cons, hrest]
    simp only [total, map_cons, sum_cons, add_assoc]

/-- A machine counts for the code that it is made of. -/
@[simp] theorem total_machine (c : Code) (id : MachineId) (selector : SymbolId) :
    (c.machine id selector).total w = c.total w := by
  have hstates : ∀ (ss : List (List Op)) (n : Nat),
      totalStates w (numbered n ss) = (ss.map (totalOps w)).sum := by
    intro ss
    induction ss with
    | nil => exact fun _ => rfl
    | cons s ss ih =>
      intro n
      rw [numbered, totalStates, ih, map_cons, sum_cons]
  rw [machine, Machine.total, hstates, map_cons, sum_cons]
  rfl

end Code

end Lowering

end Total

/-! ## What an op holds of the source -/

/-- What an iterator is asked of. -/
def Expr.iterated : Expr → Expr
  | .method iterable "iterator" [] => iterable
  | e => e

namespace SymbolTable

/-- Whether lowering added the variable. -/
def isMade (σ : SymbolTable) (x : SymbolId) : Bool :=
  (σ.get? x).any fun info => info.kind = .synthetic

/-- Whether lowering added the variable under one of the names. -/
def isMadeAs (σ : SymbolTable) (names : List String) (x : SymbolId) : Bool :=
  (σ.get? x).any fun info => info.kind = .synthetic ∧ info.name ∈ names

/-- The expressions that mention no variable that lowering added. -/
def written (σ : SymbolTable) (es : List Expr) : Multiset Expr :=
  es.filter fun e => !e.uses.any σ.isMade

/-- What is stored of the source: nothing in the fields that steer machines, and in the handle of a
loop over an iterable what its iterator is asked of. -/
def stored (σ : SymbolTable) (x : SymbolId) (e : Expr) : Multiset Expr :=
  if σ.isMadeAs ["selector", "handling", "pending", "pendingJump"] x then 0
  else if σ.isMadeAs ["iter"] x then σ.written [e.iterated]
  else σ.written [e]

end SymbolTable

/-- The expressions of the source in an op itself. -/
def Op.written (σ : SymbolTable) : Op → Multiset Expr
  | .plain s => s.total fun t => σ.written t.exprs
  | .assign x e => σ.stored x e
  | .yield e => σ.written [e]
  | .cond test _ _ => σ.written [test]
  | .switch selector arms => σ.written (selector :: arms.flatMap SwitchArm.labels)
  | .synchronized lock _ => σ.written [lock]
  | _ => 0

/-- The number of times that an op itself suspends. -/
def Op.yields : Op → ℕ
  | .yield _ => 1
  | _ => 0

/-- The expressions of the source in an op itself, and the number of times that it suspends. -/
def Op.tally (σ : SymbolTable) (op : Op) : Multiset Expr × ℕ := (op.written σ, op.yields)

/-- The values that resources are reset to before the op, where it is a guard. -/
def Op.resets : Op → Multiset Expr
  | .guarded _ fields => Multiset.replicate fields.resources.length .null
  | _ => 0

/-- What lowering adds to the source before the op. -/
def Op.padding (op : Op) : Multiset Expr × ℕ := (op.resets, 0)

/-- The expressions of a statement itself, of a marker its argument, and the number of times it
emits. -/
def Stmt.tally (m : Markers) (σ : SymbolTable) (s : Stmt) : Multiset Expr × ℕ :=
  (σ.written (s.ordinary m), (s.marker? m).toList.length)

section Tally

variable {σ : SymbolTable} {m : Markers}

theorem tally_assign (x : SymbolId) (e : Expr) : (Op.assign x e).tally σ = (σ.stored x e, 0) := rfl

theorem tally_yield (e : Expr) : (Op.yield e).tally σ = (σ.written [e], 1) := rfl

theorem tally_cond (test : Expr) (yes no : List Op) :
    (Op.cond test yes no).tally σ = (σ.written [test], 0) := rfl

theorem tally_synchronized (lock : Expr) (ops : List Op) :
    (Op.synchronized lock ops).tally σ = (σ.written [lock], 0) := rfl

namespace SymbolTable

@[simp] theorem written_nil : σ.written [] = 0 := rfl

theorem written_append (es fs : List Expr) :
    σ.written (es ++ fs) = σ.written es + σ.written fs := by
  rw [written, filter_append]
  exact (Multiset.coe_add _ _).symm

/-- Expressions that mention variables of the source only are all there. -/
theorem written_of_uses {es : List Expr} (h : ∀ e ∈ es, ∀ x ∈ e.uses, σ.isMade x = false) :
    σ.written es = es := by
  rw [written, filter_eq_self.mpr]
  intro e he
  rw [Bool.not_eq_true', any_eq_false]
  exact fun x hx => Bool.not_eq_true _ ▸ h e he x hx

variable {x : SymbolId} {type : TypeRef}

/-- An expression that mentions a variable that lowering added is none of the source. -/
theorem written_of_made {e : Expr} (hx : x ∈ e.uses) (hmade : σ.isMade x) : σ.written [e] = 0 := by
  have hany : e.uses.any σ.isMade = true := any_eq_true.mpr ⟨x, hx, hmade⟩
  rw [written, filter_singleton, hany]
  rfl

theorem isMadeAs_of_not_made {names : List String} (h : σ.isMade x = false) :
    σ.isMadeAs names x = false := by
  unfold isMade at h
  unfold isMadeAs
  cases hinfo : σ.get? x with
  | none => rfl
  | some info =>
    rw [hinfo] at h
    have hkind : info.kind ≠ .synthetic := by simpa using h
    simp [hkind]

theorem isMade_of_steers (h : σ.Steers x) : σ.isMade x = true := by
  obtain ⟨info, hinfo, hkind, -⟩ := h
  rw [isMade, hinfo, Option.any_some, hkind]
  rfl

/-- What is stored in a field that steers a machine is none of the source. -/
theorem stored_of_steers (h : σ.Steers x) (e : Expr) : σ.stored x e = 0 := by
  obtain ⟨info, hinfo, hkind, hname⟩ := h
  have hmade : σ.isMadeAs ["selector", "handling", "pending", "pendingJump"] x = true := by
    rw [isMadeAs, hinfo, Option.any_some, hkind]
    simpa using hname
  rw [stored, if_pos hmade]

/-- What is stored in a variable of the source is of the source. -/
theorem stored_of_not_made (h : σ.isMade x = false) (e : Expr) : σ.stored x e = σ.written [e] := by
  rw [stored, isMadeAs_of_not_made h, isMadeAs_of_not_made h]
  rfl

/-- A field that lowering added, under a name that it uses for no other purpose. -/
theorem isMade_of_get? {name : String} (h : σ.get? x = some ⟨name, type, .synthetic⟩) :
    σ.isMade x = true := by
  rw [isMade, h]
  rfl

/-- The handle of a delegate holds what the marker was applied to. -/
theorem stored_delegate (h : σ.get? x = some ⟨"delegate", type, .synthetic⟩) (e : Expr) :
    σ.stored x e = σ.written [e] := by
  have hnot : ∀ names, "delegate" ∉ names → σ.isMadeAs names x = false := by
    intro names hnames
    rw [isMadeAs, h]
    simpa using hnames
  rw [stored, hnot _ (by decide), hnot _ (by decide)]
  rfl

/-- The handle of a loop holds the iterator of its iterable. -/
theorem stored_iter (h : σ.get? x = some ⟨"iter", type, .synthetic⟩) (iterable : Expr) :
    σ.stored x (.method iterable "iterator" []) = σ.written [iterable] := by
  have hsteers : σ.isMadeAs ["selector", "handling", "pending", "pendingJump"] x = false := by
    rw [isMadeAs, h]
    rfl
  have hiter : σ.isMadeAs ["iter"] x = true := by
    rw [isMadeAs, h]
    rfl
  rw [stored, hsteers, hiter]
  rfl

end SymbolTable

/-- A call on a handle is no expression of the source. -/
theorem written_callOn {x : Ident} {y : SymbolId} (hx : x.symbol = some y) (hy : σ.isMade y)
    (name : String) : σ.written [Lowering.Part.callOn x name] = 0 := by
  refine SymbolTable.written_of_made (x := y) ?_ hy
  rw [Lowering.Part.callOn, Expr.uses, Expr.uses, hx]
  exact mem_append_left _ mem_cons_self

/-- Without markers a statement counts for its expressions. -/
theorem Stmt.tally_of_not_marker {s : Stmt} (h : s.marker? m = none) :
    s.tally m σ = (σ.written s.exprs, 0) := by
  rw [tally, ordinary, h]
  rfl

/-- A plain statement is counted as an op as it is counted in the body. -/
theorem tally_plain {s : Stmt} (h : s.needsLowering m = false) :
    (Op.plain s).tally σ = s.total (Stmt.tally m σ) := by
  have hall : ∀ path t, Lies [s] path t → (σ.written t.exprs, 0) = t.tally m σ := by
    intro path t ht
    obtain ⟨w, hw⟩ := Stmt.leaves_of_lies h ht
    exact (Stmt.tally_of_not_marker (Stmt.marker?_of_leaves hw)).symm
  have htotal := Stmt.map_totalAll (AddMonoidHom.inl (Multiset Expr) ℕ) hall
  rwa [Stmt.totalAll_cons, Stmt.totalAll_cons, Stmt.totalAll_nil, Stmt.totalAll_nil, add_zero,
    add_zero] at htotal

end Tally

/-! ## What code holds of the source -/

open SymbolTable

namespace Lowering

/-- The ops hold that much of the source, and the resets of the resources of their guards besides.
-/
def OpsHold (σ : SymbolTable) (ops : List Op) (x : Multiset Expr × ℕ) : Prop :=
  totalOps (Op.tally σ) ops = x + totalOps Op.padding ops

/-- The code holds that much of the source, and the resets of the resources of its guards besides.
-/
def Code.Holds (σ : SymbolTable) (c : Code) (x : Multiset Expr × ℕ) : Prop :=
  c.total (Op.tally σ) = x + c.total Op.padding

/-- The op is none of the source. -/
def Idle (σ : SymbolTable) (op : Op) : Prop := op.tally σ = 0 ∧ op.padding = 0

section Holds

variable {σ : SymbolTable} {a b ops yes no : List Op} {x y : Multiset Expr × ℕ} {c d : Code}

theorem idle_moves : Moves (Idle σ) where
  setState := fun _ => ⟨rfl, rfl⟩
  jump := fun _ => ⟨rfl, rfl⟩
  finish := ⟨rfl, rfl⟩

namespace OpsHold

theorem append (ha : OpsHold σ a x) (hb : OpsHold σ b y) : OpsHold σ (a ++ b) (x + y) := by
  unfold OpsHold at *
  rw [totalOps_append, totalOps_append, ha, hb, add_add_add_comm]

/-- Ops that are none of the source. -/
theorem idle (h : EveryOp (Idle σ) ops) : OpsHold σ ops 0 := by
  rw [OpsHold, (h.imp fun _ hop => hop.1).total_eq_zero,
    (h.imp fun _ hop => hop.2).total_eq_zero, add_zero]

theorem nil : OpsHold σ [] 0 := idle trivial

theorem jump (tag : Tag) : OpsHold σ [.jump tag] 0 := idle ⟨idle_moves.jump tag, trivial⟩

/-- An op without ops in it. -/
theorem single (op : Op) (hflat : ∀ w : Op → Multiset Expr × ℕ, op.total w = w op)
    (hresets : op.resets = 0) : OpsHold σ [op] (op.tally σ) := by
  rw [OpsHold, totalOps, totalOps, totalOps, totalOps, hflat, hflat, Op.padding, hresets]
  rfl

theorem plain {m : Markers} {s : Stmt} (h : s.needsLowering m = false) :
    OpsHold σ [.plain s] (Stmt.totalAll (Stmt.tally m σ) [s]) := by
  have hop := single (σ := σ) (.plain s) (fun _ => rfl) rfl
  rwa [tally_plain h, ← add_zero (Stmt.total _ s)] at hop

/-- A choice holds its test and what its branches hold. -/
theorem cond (test : Expr) (hyes : OpsHold σ yes x) (hno : OpsHold σ no y) :
    OpsHold σ [.cond test yes no] ((σ.written [test], 0) + (x + y)) := by
  have hpadding : (Op.cond test yes no).padding = 0 := rfl
  unfold OpsHold at *
  rw [totalOps, totalOps, totalOps, totalOps, Op.total, Op.total, hyes, hno, hpadding, tally_cond]
  abel

theorem synchronized (lock : Expr) (h : OpsHold σ ops x) :
    OpsHold σ [.synchronized lock ops] ((σ.written [lock], 0) + x) := by
  have hpadding : (Op.synchronized lock ops).padding = 0 := rfl
  unfold OpsHold at *
  rw [totalOps, totalOps, totalOps, totalOps, Op.total, Op.total, h, hpadding, tally_synchronized]
  abel

/-- First values that are stored in a variable of the source. -/
theorem inits {z : SymbolId} (hz : σ.isMade z = false) (init : Option Expr) :
    OpsHold σ (init.toList.map (Op.assign z)) (σ.written init.toList, 0) := by
  cases init with
  | none => exact nil
  | some e =>
    have hop := single (σ := σ) (.assign z e) (fun _ => rfl) rfl
    rwa [tally_assign, stored_of_not_made hz] at hop

theorem initOps {resources : List (SymbolId × Option Expr)}
    (h : ∀ r ∈ resources, σ.isMade r.1 = false) :
    OpsHold σ (initOps resources) (σ.written (resources.flatMap fun r => r.2.toList), 0) := by
  induction resources with
  | nil => exact nil
  | cons r resources ih =>
    obtain ⟨hr, hresources⟩ := forall_mem_cons.mp h
    have hboth := (inits hr r.2).append (ih hresources)
    rwa [Prod.mk_add_mk, ← written_append] at hboth

end OpsHold

namespace Code.Holds

theorem now (h : OpsHold σ ops x) : Code.Holds σ (.now ops) x := by
  rw [Code.Holds, Code.total_now, Code.total_now]
  exact h

theorem of_now (h : Code.Holds σ (.now ops) x) : OpsHold σ ops x := by
  rw [Code.Holds, Code.total_now, Code.total_now] at h
  exact h

theorem opened : Code.Holds σ .opened 0 := by
  rw [Code.Holds, Code.total_opened, Code.total_opened, add_zero]

theorem append (hc : c.Holds σ x) (hd : d.Holds σ y) : (c ++ d).Holds σ (x + y) := by
  unfold Code.Holds at *
  rw [Code.total_append, Code.total_append, hc, hd, add_add_add_comm]

/-- Ops that are none of the source may be added. -/
theorem appendIdle (hc : c.Holds σ x) (h : EveryOp (Idle σ) ops) : (c ++ .now ops).Holds σ x := by
  have hboth := hc.append (.now (.idle h))
  rwa [add_zero] at hboth

/-- A jump at the end of code is none of the source. -/
theorem jump (h : c.Holds σ x) (cur : List Op) (tag : Tag) : (c.sealed cur (.jump tag)).Holds σ x :=
  h.appendIdle (Code.Every.sealing (P := Idle σ) (.jump tag) (idle_moves.jump tag) _)

theorem finish (h : c.Holds σ x) (cur : List Op) : (c.sealed cur .finish).Holds σ x :=
  h.appendIdle (Code.Every.sealing (P := Idle σ) .finish idle_moves.finish _)

end Code.Holds

variable {ctx : Context} {L L' : Ledger} {cur : List Op} {tag : Tag}

/-- Two branches that leave the state. -/
theorem holds_split (cur : List Op) (tag : Tag) (test : Expr) (hc : c.Holds σ x)
    (hd : d.Holds σ y) : Code.Holds σ
      (Code.sealed cur (.now [.cond test (c.sealed [] (.jump tag)).ops
        (d.sealed [] (.jump tag)).ops]) (.jump tag) ++
        ⟨[], (c.sealed [] (.jump tag)).states ++ (d.sealed [] (.jump tag)).states ++ [[]]⟩)
      ((σ.written [test], 0) + (x + y)) := by
  have hc' := hc.jump [] tag
  have hd' := hd.jump [] tag
  set yes := c.sealed [] (.jump tag)
  set no := d.sealed [] (.jump tag)
  have htotal : ∀ w : Op → Multiset Expr × ℕ,
      Code.total w (.now [.cond test yes.ops no.ops] ++ ⟨[], yes.states ++ no.states ++ [[]]⟩) =
        w (.cond test yes.ops no.ops) + (yes.total w + no.total w) := by
    intro w
    rw [Code.total_append, Code.total_now, Code.total_states, Code.total, Code.total]
    simp only [totalOps, Op.total, map_append, sum_append, map_cons, map_nil, sum_cons, sum_nil]
    abel
  have hwhole : Code.Holds σ (.now [.cond test yes.ops no.ops] ++
      ⟨[], yes.states ++ no.states ++ [[]]⟩)
      ((σ.written [test], 0) + (x + y)) := by
    have hpadding : (Op.cond test yes.ops no.ops).padding = 0 := rfl
    unfold Code.Holds at *
    rw [htotal, htotal, hc', hd', hpadding, tally_cond]
    abel
  -- the jump behind the choice counts for nothing, wherever it stands
  have hseal : ∀ w : Op → Multiset Expr × ℕ, w (.jump tag) = 0 → ∀ a : Code,
      (a.sealed cur (.jump tag)).total w = a.total w := by
    intro w hw a
    have hsealing : totalOps w (Code.sealing (a.stop cur) (.jump tag)) = 0 :=
      (Code.Every.sealing (P := fun op => w op = 0) (.jump tag) hw _).total_eq_zero
    rw [Code.sealed, Code.total_append, Code.total_now, hsealing, add_zero]
  rw [Code.Holds, Code.total_append, Code.total_append] at hwhole ⊢
  rw [hseal _ rfl, hseal _ rfl]
  exact hwhole

/-- The updates of a loop, in the state that updates. -/
theorem holds_updates (loc : Location) (es : List Expr) :
    OpsHold σ (es.map fun e => .plain (.expr e loc)) (σ.written es, 0) := by
  induction es with
  | nil => exact .nil
  | cons e es ih =>
    have hop := OpsHold.single (σ := σ) (.plain (.expr e loc)) (fun _ => rfl) rfl
    rw [Op.tally, Op.written, Stmt.total_eq, Stmt.children, Stmt.totalAll_nil, add_zero,
      Stmt.exprs] at hop
    have hboth := hop.append ih
    rwa [Prod.mk_add_mk, ← written_append] at hboth

/-- The states behind the body of a loop. -/
theorem holds_tail (shape : Part.LoopShape) (loc : Location) :
    Code.Holds σ ⟨[], shape.tail loc L⟩ (σ.written (shape.test.toList ++ shape.update), 0) := by
  have htest : OpsHold σ (shape.testOps L) (σ.written shape.test.toList, 0) := by
    unfold Part.LoopShape.testOps
    cases shape.test with
    | none => exact .jump _
    | some test =>
      have hcond := (OpsHold.cond (σ := σ) test (.jump (L.tagAt 0)) .nil).append (.jump (L.tagAt 2))
      rwa [add_zero, add_zero, add_zero] at hcond
  have hupdate : OpsHold σ (shape.updateOps loc L) (σ.written shape.update, 0) := by
    have hboth := (holds_updates loc shape.update).append (OpsHold.jump (σ := σ) (L.tagAt 1))
    rwa [add_zero] at hboth
  unfold OpsHold at htest hupdate
  rw [Code.Holds, Code.total_states, Code.total_states, written_append, ← Prod.mk_add_mk _ _ 0 0,
    Part.LoopShape.tail]
  cases hupdates : shape.update with
  | nil =>
    simp only [isEmpty_nil, if_true, nil_append, map_cons, map_nil, sum_cons, sum_nil, totalOps,
      htest, written_nil, ← Prod.zero_eq_mk, add_zero]
  | cons =>
    rw [← hupdates]
    have hnot : shape.update.isEmpty = false := by rw [hupdates]; rfl
    simp only [hnot, Bool.false_eq_true, if_false, cons_append, nil_append, map_cons, map_nil,
      sum_cons, sum_nil, totalOps, htest, hupdate]
    abel

variable {g : Ledger.GuardNames}

/-- A guard with what resets it: the resets of the fields that steer it count for nothing, those of
its resources are what lowering adds. -/
theorem holds_tryCatch {xs : List SymbolId} (m : MachineId) (hs : List Handler)
    (tag tag' endTag : Tag) (hg : ∀ z ∈ [g.selector, g.inHandler, g.pending, g.pendingJump],
      σ.Steers z) (hxs : ∀ z ∈ xs, σ.isMade z = false) (hc : c.Holds σ x) (hd : d.Holds σ y) :
    Code.Holds σ (.now (g.reset xs ++ [.jump tag]) ++ .opened ++
      .now [g.op m xs hs c, .jump tag'] ++ .opened ++
      Code.sealed [] d (.jump endTag) ++ .opened) (x + y) := by
  simp only [forall_mem_cons] at hg
  obtain ⟨hselector, hhandler, hpending, hjump, -⟩ := hg
  have hnull : ∀ zs : List SymbolId, (∀ z ∈ zs, σ.isMade z = false) →
      totalOps (Op.tally σ) (zs.map fun z => .assign z .null) =
        (Multiset.replicate zs.length .null, 0) := by
    intro zs hzs
    induction zs with
    | nil => rfl
    | cons z zs ih =>
      obtain ⟨hz, hzs⟩ := forall_mem_cons.mp hzs
      have hassign : (Op.assign z .null).total (Op.tally σ) = (σ.stored z .null, 0) :=
        tally_assign z .null
      have hwritten : σ.written [.null] = {.null} :=
        written_of_uses (by simp [Expr.null, Expr.uses])
      rw [map_cons, totalOps, ih hzs, hassign, stored_of_not_made hz, hwritten, Prod.mk_add_mk,
        length_cons, Multiset.replicate_succ, Multiset.singleton_add]
  have hreset : totalOps (Op.tally σ) (g.reset xs ++ [.jump tag]) =
      (Multiset.replicate xs.length .null, 0) := by
    rw [totalOps_append, Ledger.GuardNames.reset, totalOps_append, hnull xs hxs]
    simp only [totalOps, Op.total, tally_assign, stored_of_steers hselector,
      stored_of_steers hhandler, stored_of_steers hpending, stored_of_steers hjump,
      (idle_moves.jump tag).1, ← Prod.zero_eq_mk,
      zero_add, add_zero]
  have hpadding : totalOps Op.padding (g.reset xs ++ [.jump tag]) = 0 := by
    refine (everyOp_append.mpr ⟨everyOp_append.mpr ⟨?_, everyOp_map fun _ _ => ?_⟩, ?_⟩ :
      EveryOp (fun op => op.padding = 0) _).total_eq_zero
    · exact ⟨rfl, rfl, rfl, rfl, trivial⟩
    · rfl
    · exact ⟨rfl, trivial⟩
  have hd' := hd.jump [] endTag
  have hjump' : (Op.jump tag').tally σ = 0 ∧ (Op.jump tag').padding = 0 := idle_moves.jump tag'
  unfold Code.Holds at *
  simp only [Code.total_append, Code.total_now, Code.total_opened, hreset, hpadding, hd',
    totalOps, Op.total, Code.total_machine, hc, hjump'.1, hjump'.2, add_zero, zero_add]
  have htally : (g.op m xs hs c).tally σ = 0 := rfl
  have hguard : (g.op m xs hs c).padding =
      (Multiset.replicate xs.length .null, 0) := rfl
  rw [htally, hguard]
  abel

/-- The expressions that a phrase has besides its statements. -/
def Phrase.extra (σ : SymbolTable) : Phrase → Multiset Expr × ℕ
  | scope p => p.extra σ
  | counting _ _ test update _ _ => (σ.written (test.toList ++ update), 0)
  | each _ _ iterable _ _ => (σ.written [iterable], 0)
  | loop shape _ _ => (σ.written (shape.test.toList ++ shape.update), 0)
  | choice selector cs => (σ.written (selector :: cs.flatMap SwitchCase.labels), 0)
  | opening resources _
  | guarded resources _ _ _ => (σ.written (resources.flatMap fun r => r.2.toList), 0)
  | stmt _ | stmts _ | branch _ | head _ _ | cases _ _ | handler _ _ _ | handlers _ _ | final _ => 0

/-- The rounds of a loop of that phrase start with nothing of the source, and its resources are
variables of the source. -/
def Phrase.Sourced (σ : SymbolTable) : Phrase → Prop
  | scope p => p.Sourced σ
  | loop shape _ _ => EveryOp (Idle σ) shape.start
  | opening resources _ | guarded resources _ _ _ => ∀ r ∈ resources, σ.isMade r.1 = false
  | _ => True

/-- Transfers are none of the source: tags wait in a field that steers a machine. -/
theorem idle_route (hpark : ∀ field, L.pendingJump = some field → σ.Steers field)
    (h : L.route ctx tag = .ok (ops, L')) : EveryOp (Idle σ) ops := by
  refine every_route idle_moves (fun _ _ => ⟨rfl, rfl⟩) (fun field hfield n => ⟨?_, rfl⟩) h
  exact congrArg (·, 0) (stored_of_steers (hpark field hfield) _)

/-- What settles a guard is none of the source. -/
theorem idle_settle (hpark : ∀ field, L.pendingJump = some field → σ.Steers field)
    (hg : σ.Steers g.pendingJump) {exits : List Tag}
    (h : settleOps L ctx cur g exits = .ok (ops, L')) : EveryOp (Idle σ) ops := by
  refine every_settle idle_moves (fun _ _ => ⟨rfl, rfl⟩) (fun field hfield n => ⟨?_, rfl⟩)
    (fun z hz n yes => ⟨?_, rfl⟩)
    ⟨rfl, rfl⟩ h
  · exact congrArg (·, 0) (stored_of_steers (hpark field hfield) _)
  · refine congrArg (·, 0)
      (written_of_made (x := g.pendingJump) ?_ (isMade_of_steers hg))
    rw [Expr.uses, Expr.uses, hz]
    exact mem_append_left _ mem_cons_self

/-- The choice of a switch, with the labels of its cases. -/
theorem holds_choose (selector : Expr) (arms : List SwitchArm) (tag : Tag) :
    OpsHold σ (chooseOps selector arms tag)
      (σ.written (selector :: arms.flatMap SwitchArm.labels), 0) := by
  have hswitch := OpsHold.single (σ := σ) (.switch selector arms) (fun _ => rfl) rfl
  have hjump : EveryOp (Idle σ) (if arms.any SwitchArm.isDefault then [] else [.jump tag]) := by
    split
    · trivial
    · exact ⟨idle_moves.jump tag, trivial⟩
  have hboth := hswitch.append (.idle hjump)
  rwa [add_zero] at hboth

/-- A statement that is no marker counts for its own expressions and for what stands in it. -/
theorem holds_stmt {m : Markers} {s : Stmt} (hs : s.marker? m = none)
    (h : c.Holds σ ((σ.written s.exprs, 0) + Stmt.totalAll (Stmt.tally m σ) s.children)) :
    c.Holds σ (0 + Stmt.totalAll (Stmt.tally m σ) [s]) := by
  rwa [zero_add, Stmt.totalAll_singleton, Stmt.tally_of_not_marker hs]

/-- A phrase that has nothing besides its statements counts for them. -/
theorem Code.Holds.bare (h : c.Holds σ (0 + x)) : c.Holds σ x := by rwa [zero_add] at h

/-- A marker counts for its argument, and for one yield. -/
theorem holds_marker {m : Markers} {e arg : Expr} {kind : MarkerKind} (loc : Location)
    (he : e.asMarker? m = some (kind, arg)) (h : c.Holds σ (σ.written [arg], 1)) :
    c.Holds σ (0 + Stmt.totalAll (Stmt.tally m σ) [.expr e loc]) := by
  rw [zero_add, Stmt.totalAll_singleton, Stmt.tally, Stmt.ordinary, Stmt.marker?, he, Stmt.children,
    Stmt.totalAll_nil, add_zero]
  exact h

/-- A call of a method that suspends on a handle. -/
theorem holds_poll {z : Ident} {w : SymbolId} (hz : z.symbol = some w) (hw : σ.isMade w) :
    OpsHold σ [.cond (Part.callOn z "hasNext") [.yield (Part.callOn z "next")] []] (0, 1) := by
  have hyield := OpsHold.single (σ := σ) (.yield (Part.callOn z "next")) (fun _ => rfl) rfl
  have hcond := OpsHold.cond (Part.callOn z "hasNext") hyield .nil
  rw [tally_yield, written_callOn hz hw, written_callOn hz hw] at hcond
  exact hcond

/-- A variable that lowering added is known under its name from then on. -/
theorem get?_newField {name : String} {type : TypeRef}
    (h : (L.newSymbol name type).symbols.Extends σ) :
    σ.get? L.nextSymbol = some ⟨name, type, .synthetic⟩ :=
  h _ _ (SymbolTable.get?_declare L.symbols name type .synthetic)

/-- **Code holds what its phrase holds**, each expression once. -/
theorem Made.tally {body : List Stmt} {ph : Phrase} {code : Code}
    (hfits : ∀ path s, Lies body path s → s.HeadFits)
    (howns : ∀ path s, Lies body path s → ∀ z ∈ s.owns, σ.isMade z = false)
    (h : Made ctx L cur ph code L') (hlies : ∀ s ∈ ph.parts, ∃ path, Lies body path s)
    (hσ : L'.symbols.Extends σ) (hpark : ∀ field, L.pendingJump = some field → σ.Steers field)
    (hph : ph.Sourced σ) :
    code.Holds σ (ph.extra σ + Stmt.totalAll (Stmt.tally ctx.markers σ) ph.parts) := by
  -- by the rules: each piece of code holds what its phrase holds, and the ops that join the pieces,
  -- which are jumps, drops and stores to fields that steer machines, hold nothing
  induction h with
  | @plain ctx L cur s hplain =>
    have hcode := Code.Holds.now (OpsHold.plain (σ := σ) hplain)
    rwa [← zero_add (Stmt.totalAll _ _)] at hcode
  | @declare ctx L cur d loc z hz =>
    obtain ⟨path, hpath⟩ := hlies _ mem_cons_self
    have hmade : σ.isMade z = false := howns path _ hpath z (Option.mem_toList.mpr hz)
    refine holds_stmt rfl ?_
    rw [Stmt.children, Stmt.totalAll_nil, add_zero]
    exact .now (.inits hmade d.init)
  | @emit ctx L cur e arg loc L' he =>
    have hset : OpsHold σ [.setState (L.tagAt 0)] 0 := .idle ⟨idle_moves.setState _, trivial⟩
    have hyield := OpsHold.single (σ := σ) (.yield arg) (fun _ => rfl) rfl
    have hcode := (Code.Holds.now (hset.append hyield)).append .opened
    rw [zero_add, add_zero] at hcode
    exact holds_marker loc he hcode
  | @emitAll ctx L cur e arg loc type z L₁ L' he _ _ hL₁ hz henter =>
    -- the argument is stored in the handle; the yield is that of a call on the handle
    subst hL₁
    have hsymbols := (Ledger.enter_grows henter).symbols.trans hσ
    have hget := get?_newField (L := L) hsymbols
    have hassign := OpsHold.single (σ := σ) (.assign L.nextSymbol arg) (fun _ => rfl) rfl
    rw [tally_assign, stored_delegate hget] at hassign
    have hpoll : OpsHold σ [.cond (Part.callOn z "hasNext") [.yield (Part.callOn z "next")] []]
        (0, 1) :=
      holds_poll (by rw [hz]; rfl) (isMade_of_get? hget)
    have hclear : EveryOp (Idle σ)
        (if livenessOf ctx type = .clearedAtScopeEnd then [.clear L.nextSymbol] else []) := by
      split
      · exact ⟨⟨rfl, rfl⟩, trivial⟩
      · trivial
    have hcode := ((Code.Holds.now (hassign.append (.jump (L.tagAt 0)))).append .opened).append
      (.now (hpoll.append (.idle hclear)))
    simp only [add_zero, Prod.mk_add_mk, zero_add] at hcode
    exact holds_marker loc he hcode
  | block _ _ ih | switch _ _ _ _ ih | labeledLoop _ _ _ _ ih | whileLoop _ _ ih | doWhile _ _ ih
  | forLoop _ _ _ ih =>
    exact holds_stmt rfl (ih (forall_lies_children hlies) hσ hpark trivial)
  | @cond ctx L cur test yes no loc yesOps noOps L₁ L' _ _ hyes hno ihYes ihNo =>
    have hchildren := forall_mem_cons.mp (forall_lies_children hlies)
    have hfirst := ihYes (forall_mem_singleton.mpr hchildren.1)
        (hno.grows.symbols.trans hσ) hpark trivial
    have hsecond := ihNo hchildren.2 hσ (hyes.grows.pendingJump.symm ▸ hpark) trivial
    have hcode := Code.Holds.now (OpsHold.cond test hfirst.bare.of_now hsecond.bare.of_now)
    rw [← Stmt.totalAll_append] at hcode
    exact holds_stmt rfl hcode
  | @split ctx L cur test yes no loc yesCode noCode L₁ L₂ L' _ _ hyes hno _ henter ihYes ihNo =>
    have hchildren := forall_mem_cons.mp (forall_lies_children hlies)
    have hσ₂ := ((L₂.reserve_grows 1).trans (Ledger.enter_grows henter)).symbols.trans hσ
    have hfirst := ihYes (forall_mem_singleton.mpr hchildren.1)
        (hno.grows.symbols.trans hσ₂) hpark trivial
    have hsecond := ihNo hchildren.2 hσ₂ (hyes.grows.pendingJump.symm ▸ hpark) trivial
    have hcode := holds_split cur (L₂.tagAt 0) test hfirst.bare hsecond.bare
    rw [← Stmt.totalAll_append] at hcode
    exact holds_stmt rfl hcode
  | loopStmt _ _ _ ih | branch _ ih | final _ ih => exact ih hlies hσ hpark trivial
  | @labeled ctx L cur label s loc code L₁ L' _ _ _ _ henter ih =>
    have hcode := ih (forall_lies_children hlies)
        ((Ledger.enter_grows henter).symbols.trans hσ) hpark trivial
    have hwhole := (hcode.jump cur (L.tagAt 0)).append .opened
    rw [add_zero] at hwhole
    exact holds_stmt rfl hwhole
  | @synchronized ctx L cur lock ss loc ops L' _ _ _ _ ih =>
    have hops := ih (forall_lies_children hlies) hσ hpark trivial
    exact holds_stmt rfl (.now (.synchronized lock hops.bare.of_now))
  | ret hroute | brk _ hroute
  | cont _ hroute => exact holds_stmt rfl (.now (.idle (idle_route hpark hroute)))
  | @tryCatch ctx L cur resources stmts catches final loc xs hs inner Lin L₁ L₂ L₃ code L₄ ops L₅ L'
    _ _ hxs hL₁ hguard
      hinner hfinal hcode hsettle hend ihInner ihCode =>
    obtain ⟨path, hpath⟩ := hlies _ mem_cons_self
    have hchildren := forall_mem_append.mp (forall_lies_children hlies)
    -- the fields that the guard adds, and the variables of its resources
    have hσ₄ : L₄.symbols.Extends σ :=
      ((settleOps_grows hsettle).trans (Ledger.enter_grows hend)).symbols.trans hσ
    have hσ₃ : L₃.symbols.Extends σ := hcode.grows.symbols.trans hσ₄
    have hσin : Lin.symbols.Extends σ := (Ledger.enter_grows hfinal).symbols.trans hσ₃
    have hσ₂ : L₂.symbols.Extends σ := hinner.grows.symbols.trans hσin
    have hgrows : L₁.Grows L₂ := (L₁.reserve_grows 3).trans (Ledger.enter_grows hguard)
    subst hL₁
    have hsteers := (steers_of_declareGuard (hgrows.symbols.trans hσ₂)).2
    have hmade : ∀ z ∈ xs, σ.isMade z = false := by
      intro z hz
      have hmem : some z ∈ resources.map fun d => d.name.symbol := hxs ▸ mem_map_of_mem hz
      obtain ⟨d, hd, heq⟩ := mem_map.mp hmem
      exact howns path _ hpath z
        (mem_append_left _ (mem_flatMap.mpr ⟨d, hd, Option.mem_toList.mpr heq⟩))
    have hlength : (resources.map LocalDecl.init).length ≤ xs.length := by
      simpa using (congrArg List.length hxs).le
    have hinits : (xs.zip (resources.map LocalDecl.init)).flatMap (fun r => r.2.toList) =
        resources.flatMap fun d => d.init.toList := by
      rw [← flatMap_map Prod.snd Option.toList, map_snd_zip hlength, flatMap_map]
    -- inside the guard tags of other machines wait in a field of the guard
    have hfirst := ihInner hchildren.1 hσin (fun field hfield => hsteers field (by
      cases hfield
      simp)) fun r hr => hmade r.1 (of_mem_zip hr).1
    have hjump₃ : L₃.pendingJump = L.pendingJump :=
      (Ledger.enter_grows hfinal).pendingJump.trans
      ((Ledger.declareGuard_grows ..).trans hgrows).pendingJump
    have hlast := ihCode hchildren.2 hσ₄ (hjump₃.symm ▸ hpark) trivial
    have hsettled : EveryOp (Idle σ) ops :=
      idle_settle ((hcode.grows.pendingJump.trans hjump₃).symm ▸ hpark)
        (hsteers _ (by simp)) hsettle
    have hwhole := holds_tryCatch ⟨L.nextMachine⟩ hs (L.tagAt 0) (L.tagAt 1)
        (L.tagAt 2) hsteers hmade hfirst
      (hlast.bare.appendIdle hsettled)
    refine holds_stmt rfl ?_
    rw [Phrase.extra, hinits, add_assoc, ← Stmt.totalAll_append] at hwhole
    exact hwhole
  | nil | noBranch | noCases | noHandlers | noFinal => exact .now .nil
  | @cons ctx L cur s ss code more L₁ L' hhead htail ihHead ihTail =>
    obtain ⟨hs, hss⟩ := forall_mem_cons.mp hlies
    have hcode := ihHead (forall_mem_singleton.mpr hs) (htail.grows.symbols.trans hσ) hpark trivial
    have hmore := ihTail hss hσ (hhead.grows.pendingJump.symm ▸ hpark) trivial
    have hboth := hcode.append hmore.bare
    rwa [add_assoc, ← Stmt.totalAll_append] at hboth
  | @scope ctx L cur p code L' _ ih =>
    refine (ih hlies hσ hpark hph).appendIdle ?_
    split
    · trivial
    · exact every_clears fun _ _ => ⟨rfl, rfl⟩
  | @forEach ctx L cur label var iterable b loc code L' _ _ ih =>
    obtain ⟨path, hpath⟩ := hlies _ mem_cons_self
    have hinit : var.init = none := hfits path _ hpath
    refine holds_stmt rfl ?_
    rw [Stmt.exprs, hinit]
    exact ih (forall_lies_children hlies) hσ hpark trivial
  | @counting ctx L cur label init test update loc b code more L₁ L' hinit hloop ihInit ihLoop =>
    obtain ⟨hinits, hbody⟩ := forall_mem_append.mp hlies
    have hcode := ihInit hinits (hloop.grows.symbols.trans hσ) hpark trivial
    have hmore := ihLoop hbody hσ (hinit.grows.pendingJump.symm ▸ hpark) trivial
    have hboth := hcode.bare.append hmore
    rwa [add_left_comm, ← Stmt.totalAll_append] at hboth
  | @each ctx L cur label var iterable loc b z type handle code L₁ L' hz _ hL₁ hhandle hloop ih =>
    have hgrows : (L.newSymbol "iter" type).Grows L₁ :=
      hL₁ ▸ ((Ledger.capture_grows ..).trans (Ledger.dropIfCleared_grows ..)).trans
        (Ledger.captureLocal_grows ..)
    have hget := get?_newField ((hgrows.trans hloop.grows).symbols.trans hσ)
    have hsymbol : handle.symbol = some L.nextSymbol := by rw [hhandle]; rfl
    have hassign := OpsHold.single (σ := σ) (.assign L.nextSymbol (.method iterable "iterator" []))
        (fun _ => rfl) rfl
    rw [tally_assign, stored_iter hget] at hassign
    -- the calls on the handle are none of the source
    have hmade := isMade_of_get? hget
    have hstart : EveryOp (Idle σ) [.assign z (Part.callOn handle "next")] := by
      have hcall : σ.written [Part.callOn handle "next"] = 0 := written_callOn hsymbol hmade "next"
      have hnext : (Part.callOn handle "next").iterated = Part.callOn handle "next" := rfl
      refine ⟨⟨?_, rfl⟩, trivial⟩
      rw [tally_assign, stored, hnext, hcall, ite_self, ite_self]
      rfl
    have hcode := ih hlies hσ (hgrows.pendingJump.symm ▸ hpark) hstart
    rw [Phrase.extra, Option.toList_some, List.append_nil, written_callOn hsymbol hmade] at hcode
    exact (Code.Holds.now hassign).append hcode.bare
  | @loop ctx L cur shape loc b L₁ code L₂ L' henter hbody htail ih =>
    have hσ₂ := (Ledger.enterAll_grows htail).symbols.trans hσ
    have hcode := (ih hlies hσ₂ ((Ledger.enter_grows henter).pendingJump.symm ▸ hpark) trivial).jump
        shape.start (shape.again L)
    have hentry : OpsHold σ (Code.sealing cur (.jump (shape.entry L))) 0 :=
      .idle (Code.Every.sealing (P := Idle σ) (.jump _) (idle_moves.jump _) cur)
    have hwhole := ((((Code.Holds.now hentry).append .opened).append (.now (.idle hph))).append
        hcode.bare).append
      (holds_tail (L := L) shape loc)
    simp only [zero_add, add_zero] at hwhole
    rwa [add_comm] at hwhole
  | @choice ctx L cur selector cases tags code L₁ L' htags _ henter ih =>
    subst htags
    have hbodies := parts_cases L (L.tagAt 0) selector cases
    have hcode := (ih (hbodies ▸ hlies) ((Ledger.enter_grows henter).symbols.trans hσ) hpark
        trivial).bare
    rw [hbodies] at hcode
    -- the arms of the op carry the labels of the cases
    have hlabels : (armsOf (cases.zip (L.caseTags cases.length))).flatMap SwitchArm.labels =
        cases.flatMap SwitchCase.labels := by
      conv_rhs => rw [← fst_zip_caseTags L cases, flatMap_map]
      exact flatMap_map ..
    have hwhole := ((Code.Holds.now (holds_choose selector
      (armsOf (cases.zip (L.caseTags cases.length))) (L.tagAt 0))).append hcode).append .opened
    rwa [add_zero, hlabels] at hwhole
  | @case ctx L cur endTag labels isDefault stmts tag rest code more L₁ L₂ L' henter hbody hrest
    ihBody ihRest =>
    obtain ⟨hstmts, hothers⟩ := forall_mem_append.mp hlies
    have hgrows := Ledger.enter_grows henter
    have hcode := ihBody hstmts (hrest.grows.symbols.trans hσ)
        (hgrows.pendingJump.symm ▸ hpark) trivial
    have hmore := ihRest hothers hσ ((hgrows.trans hbody.grows).pendingJump.symm ▸ hpark) trivial
    have hboth := (Code.Holds.opened.append
        (hcode.bare.jump [] ((rest.head?.map Prod.snd).getD endTag))).append hmore.bare
    rwa [add_assoc, ← Stmt.totalAll_append] at hboth
  | @opening ctx L cur resources stmts code L' _ ih =>
    exact (Code.Holds.now (.initOps hph)).append (ih hlies hσ hpark trivial).bare
  | @handler ctx L cur param types stmts code L' _ ih =>
    exact ih hlies hσ ((L.captureLocal_grows ..).pendingJump.symm ▸ hpark) trivial
  | @handlers ctx L cur param z types stmts cs hs code more L₁ L₂ L' _ henter hbody hrest
    ihBody ihRest =>
    obtain ⟨hstmts, hothers⟩ := forall_mem_append.mp hlies
    have hgrows := (L.reserve_grows 1).trans (Ledger.enter_grows henter)
    have hcode := ihBody hstmts (hrest.grows.symbols.trans hσ)
        (hgrows.pendingJump.symm ▸ hpark) trivial
    have hmore := ihRest hothers hσ ((hgrows.trans hbody.grows).pendingJump.symm ▸ hpark) trivial
    have hboth := (Code.Holds.opened.append (hcode.bare.finish [])).append hmore.bare
    rwa [add_assoc, ← Stmt.totalAll_append] at hboth
  | @guarded ctx L cur resources stmts cs hs code more L₁ L' hbody hhandlers ihBody ihHandlers =>
    obtain ⟨hstmts, hothers⟩ := forall_mem_append.mp hlies
    have hcode := ihBody hstmts (hhandlers.grows.symbols.trans hσ) hpark hph
    have hmore := ihHandlers hothers hσ (hbody.grows.pendingJump.symm ▸ hpark) trivial
    have hboth := (hcode.finish cur).append hmore.bare
    rwa [add_assoc, ← Stmt.totalAll_append] at hboth

end Holds

end Lowering

/-! ## Classes -/

open Lowering

namespace Stmt

/-- A marker is counted once. -/
theorem isMarker_toNat (m : Markers) (s : Stmt) :
    (s.isMarker m).toNat = (s.marker? m).toList.length := by
  cases s with
  | expr e =>
    rw [isMarker, marker?]
    cases e.asMarker? m with
    | none | some => rfl
  | _ => rfl

/-- The argument of a marker mentions nothing but what the marker mentions. -/
theorem uses_of_ordinary {m : Markers} {s : Stmt} {e : Expr} (he : e ∈ s.ordinary m) {x : SymbolId}
    (hx : x ∈ e.uses) : x ∈ usesOf s.exprs := by
  rw [ordinary] at he
  split at he
  · next kind arg hmarker =>
    cases mem_singleton.mp he
    cases s with
    | expr e' => exact mem_usesOf.mpr ⟨e', mem_cons_self, uses_of_asMarker hmarker x hx⟩
    | _ => cases hmarker
  · exact mem_usesOf.mpr ⟨e, he, hx⟩

end Stmt

/-- What a class holds of its procedure. -/
structure Procedure.Conserved (m : Markers) (p : Procedure) (cls : GeneratorClass) : Prop where
  /-- the expressions of the ops, without those that lowering made, are those of the body, each as
  often as there, and a reset for each resource of a guard -/
  exprs : cls.advance.total (Op.written cls.symbols) =
    Stmt.totalAll (fun s => (s.ordinary m : Multiset Expr)) p.resolve.1.body +
      cls.advance.total Op.resets
  /-- there is one yield for each marker -/
  yields : cls.advance.total Op.yields = Stmt.totalAll (fun s => (s.isMarker m).toNat) p.body

namespace Procedure

variable {p : Procedure} {settings : Settings} {cls : GeneratorClass}

/-- The variables of the source are none that lowering added. -/
theorem not_made (b : Blueprint p settings cls) {x : SymbolId}
    (hx : x ∈ p.resolve.1.paramNames ++ Stmt.declaresAll p.resolve.1.body) :
    b.known.symbols.isMade x = false := by
  obtain ⟨info, hinfo, hkind⟩ := b.source_info hx
  rw [isMade, hinfo]
  simpa using hkind

/-- All that a statement of the body mentions are variables of the source. -/
theorem symbols_not_made (b : Blueprint p settings cls) {path : List Stmt} {s : Stmt}
    (hs : Lies p.resolve.1.body path s) : ∀ x ∈ s.symbols, b.known.symbols.isMade x = false := by
  have hparams : ∀ x ∈ p.resolve.1.paramNames.reverse, b.known.symbols.isMade x = false :=
    fun x hx => not_made b (mem_append_left _ (mem_reverse.mp hx))
  have hdeclares : ∀ x ∈ Stmt.declaresAll p.resolve.1.body, b.known.symbols.isMade x = false :=
    fun x hx => not_made b (mem_append_right _ hx)
  have hsees := Stmt.SeesAll.sees (V := fun x => b.known.symbols.isMade x = false)
      ⟨_, p.resolve_scoped.2, hparams⟩ hdeclares
  rcases hs.head with ⟨-, hmem⟩ | ⟨t, ht, inner, rfl, hinner⟩
  · exact (hsees s hmem).mentions (fun x hx => hdeclares x (Stmt.mem_declaresAll hmem hx))
      (.top mem_cons_self)
  · exact (hsees t ht).mentions (fun x hx => hdeclares x (Stmt.mem_declaresAll ht hx))
      ((Lies.top mem_cons_self).within hinner)

/-- A class holds what its procedure holds, and nothing else but resets. -/
theorem conserved (hp : p.Grammatical) (h : p.lower settings = .ok cls) :
    p.Conserved settings.markers cls := by
  obtain ⟨b⟩ := lower_blueprint h
  set σ := b.known.symbols with hσ
  have hsource : ∀ path s, Lies p.resolve.1.body path s → ∀ x ∈ s.symbols, σ.isMade x = false :=
    fun path s hs => symbols_not_made b hs
  have hnone : ∀ field, b.start.pendingJump = some field → σ.Steers field := by
    rw [(Ledger.captureParams_grows ..).pendingJump]
    exact fun field hfield => nomatch hfield
  have hcode := b.made.tally hp.resolve
      (fun path s hs x hx => hsource path s hs x (mem_append_right _ hx))
    (fun s hs => ⟨[], .top hs⟩) (.refl _) hnone trivial
  have hadvance : cls.advance = (b.code.sealed [] .finish).machine .root
      (Ledger.initial p.resolve.2).selector :=
    congrArg GeneratorClass.advance b.class_eq
  have hsymbols : cls.symbols = σ := congrArg GeneratorClass.symbols b.class_eq
  have hmachine : cls.advance.total (Op.tally σ) =
      Stmt.totalAll (Stmt.tally settings.markers σ) p.resolve.1.body +
        cls.advance.total Op.padding := by
    rw [hadvance, Code.total_machine, Code.total_machine]
    exact hcode.bare.finish []
  constructor
  · -- the first component, in which no expression of the body is left out
    have hfst := congrArg (AddMonoidHom.fst (Multiset Expr) ℕ) hmachine
    rw [map_add, Machine.map_total, Machine.map_total] at hfst
    rw [hsymbols]
    refine hfst.trans (congrArg (· + _) (Stmt.map_totalAll _ fun path s hs => ?_))
    exact written_of_uses fun e he x hx =>
      hsource path s hs x (mem_append_left _ (Stmt.uses_of_ordinary he hx))
  · -- the second component; markers are the same with and without symbols
    have hsnd := congrArg (AddMonoidHom.snd (Multiset Expr) ℕ) hmachine
    rw [map_add, Machine.map_total, Machine.map_total] at hsnd
    have hpadding : cls.advance.total
        (fun op => AddMonoidHom.snd (Multiset Expr) ℕ op.padding) = 0 :=
      (Machine.map_total (0 : ℕ →+ ℕ) (fun _ => 0) cls.advance).symm
    rw [hpadding, add_zero] at hsnd
    have hbody : Stmt.unresolvedAll p.resolve.1.body = Stmt.unresolvedAll p.body :=
      congrArg Procedure.body p.unresolved_resolve
    have hblind : ∀ s : Stmt, (s.unresolved.isMarker settings.markers).toNat =
        (s.isMarker settings.markers).toNat := by
      intro s
      rw [Stmt.isMarker_toNat, Stmt.isMarker_toNat, Stmt.marker?_unresolved]
      cases s.marker? settings.markers with
      | none | some => rfl
    rw [← Stmt.totalAll_unresolved hblind, ← hbody, Stmt.totalAll_unresolved hblind]
    exact hsnd.trans (Stmt.map_totalAll _ fun _ s _ => (Stmt.isMarker_toNat _ s).symm)

/-- **Nothing is lost and nothing is copied.** The expressions of the source in the ops of a class
are those of the body with its variables resolved, each as often as it stands there: of a marker its
argument, and the initialisers, tests, updates, iterables, selectors, labels and locks of all
statements. Only the resets of resources are added. There are as many yields as markers. -/
theorem lower_conserved (settings : Settings) :
    (∀ (p : Procedure) cls, p.Grammatical → p.lower settings = .ok cls →
      p.Conserved settings.markers cls) ∧
      ∀ source file u, ProgramUnit.ofSource source file = .ok u → ∀ p ∈ u.procedures, ∀ cls,
        p.lower settings = .ok cls → p.Conserved settings.markers cls :=
  ⟨fun _ _ hp h => conserved hp h, fun _ _ _ hu p hp _ h =>
    conserved (ProgramUnit.ofSource_grammatical hu p hp) h⟩

theorem lower_conserved_mixed : mixed.Grammatical ∧ ∃ cls, mixed.lower {} = .ok cls ∧
    cls.advance.total Op.yields = 2 ∧
      cls.advance.total (Op.written cls.symbols) =
        Stmt.totalAll (fun s => (s.ordinary ({} : Settings).markers : Multiset Expr))
          mixed.resolve.1.body +
          cls.advance.total Op.resets := by
  have hgrammatical : mixed.Grammatical := by decide
  have hlawful : mixed.Lawful ({} : Settings).markers := by decide
  obtain ⟨cls, h⟩ := accepts_lawful hgrammatical hlawful
  obtain ⟨hexprs, hyields⟩ := (lower_conserved {}).1 mixed cls hgrammatical h
  refine ⟨hgrammatical, cls, h, hyields.trans ?_, hexprs⟩
  simp only [mixed, Stmt.totalAll_cons, Stmt.totalAll_append, Stmt.totalAll_nil, Stmt.total_eq,
    Stmt.children, SwitchCase.body, flatMap_cons, flatMap_nil, List.append_nil, Option.getD_some]
  decide

end Procedure

end Resumable
