import Resumable.Proofs.Layout

/-!
# The guards of code, in order

* `Site.Serves` says that a guard is made of a try;
* `Counted` are the guards that lowering adds between two ledgers, in the order of their machines;
* `Code.machines` are the machines in code.
-/

namespace Resumable

open List

namespace Lowering

open Ledger Code

/-! ## Sites in order -/

namespace Site

/-- The states of the guard are numbered in order, and its fields are four variables in a row. -/
structure Regular (G : Site) : Prop where
  code : ∃ c : Code, G.machine = c.machine G.id G.selector
  inHandler : G.fields.inHandler = ⟨G.selector.index + 1⟩
  pending : G.fields.pending = ⟨G.selector.index + 2⟩
  pendingJump : G.fields.pendingJump = ⟨G.selector.index + 3⟩

/-- The fields that steer a guard are apart. -/
theorem Regular.nodup {G : Site} (h : G.Regular) : G.steering.Nodup := by
  have hselector : G.selector = ⟨G.selector.index⟩ := rfl
  rw [steering, h.inHandler, h.pending, h.pendingJump, hselector]
  simp

/-- All fields of a guard come before those of the other. -/
def Before (G G' : Site) : Prop := G.selector.index + 4 ≤ G'.selector.index

end Site

/-- The guard is made of a try: it has its resources and handlers, and its states and the first one
of its final code are the code of its parts. -/
inductive Site.Serves (G : Site) : Stmt → Prop where
  | made {rs body catches final loc ctx L inner Lin L₃ code L₄}
      (hxs : rs.map (fun d => d.name.symbol) = G.fields.resources.map some) (hsize : L.size = 1)
      (hinner : Made ctx L []
        (.guarded (G.fields.resources.zip (rs.map LocalDecl.init)) body catches
        G.fields.handlers) inner Lin)
      (hmachine : G.machine = inner.machine G.id G.selector) (hknown : Lin.tags = G.known)
      (hfinal : Made ctx L₃ [] (.final final) code L₄) (hops : code.ops <+: G.final) :
      G.Serves (.tryCatch rs body catches final loc)

/-- The guards that lowering has added between two ledgers, in the order of their machines. -/
structure Counted (L L' : Ledger) (tries : List Stmt) (machines : List Machine)
    (sites : List Site) : Prop where
  ids : sites.map (fun G => G.id.number) = List.range' L.nextMachine sites.length
  nextMachine : L'.nextMachine = L.nextMachine + sites.length
  symbols : L.symbols.size ≤ L'.symbols.size
  regular : ∀ G ∈ sites, G.Regular
  within : ∀ G ∈ sites, L.symbols.size ≤ G.selector.index ∧ G.selector.index + 4 ≤ L'.symbols.size
  spaced : sites.Pairwise Site.Before
  tries : List.Forall₂ Site.Serves sites tries
  machines : machines.Perm (sites.map Site.machine)

namespace Counted

variable {L L₁ L₂ : Ledger} {ts ts' : List Stmt} {ms ms' : List Machine} {ss ss' : List Site}

theorem nil (hnext : L₁.nextMachine = L.nextMachine) (hsymbols : L.symbols.size ≤ L₁.symbols.size) :
    Counted L L₁ [] [] [] where
  ids := rfl
  nextMachine := hnext
  symbols := hsymbols
  regular := nofun
  within := nofun
  spaced := .nil
  tries := .nil
  machines := .nil

theorem append (h : Counted L L₁ ts ms ss) (h' : Counted L₁ L₂ ts' ms' ss') :
    Counted L L₂ (ts ++ ts') (ms ++ ms') (ss ++ ss') where
  ids := by
    rw [map_append, h.ids, h'.ids, h.nextMachine, length_append, List.range'_append_1]
  nextMachine := by
    rw [h'.nextMachine, h.nextMachine, length_append, Nat.add_assoc]
  symbols := Nat.le_trans h.symbols h'.symbols
  regular := fun G hG => (mem_append.mp hG).elim (h.regular G) (h'.regular G)
  within := by
    intro G hG
    have hle := h.symbols
    have hle' := h'.symbols
    rcases mem_append.mp hG with hG | hG
    · have hG := h.within G hG
      omega
    · have hG := h'.within G hG
      omega
  spaced := by
    refine pairwise_append.mpr ⟨h.spaced, h'.spaced, fun G hG G' hG' => ?_⟩
    have hG := h.within G hG
    have hG' := h'.within G' hG'
    unfold Site.Before
    omega
  tries := rel_append h.tries h'.tries
  machines := by
    rw [map_append]
    exact h.machines.append h'.machines

theorem of_perm (h : Counted L L₁ ts ms ss) (hms : ms'.Perm ms) : Counted L L₁ ts ms' ss :=
  { h with machines := hms.trans h.machines }

/-- The guards stay the same if the ledgers change elsewhere. -/
theorem congr {L' L₁' : Ledger} (h : Counted L L₁ ts ms ss) (hnext : L'.nextMachine = L.nextMachine)
    (hnext₁ : L₁'.nextMachine = L₁.nextMachine) (hsymbols : L'.symbols.size ≤ L.symbols.size)
    (hsymbols₁ : L₁.symbols.size ≤ L₁'.symbols.size) : Counted L' L₁' ts ms ss where
  ids := by rw [hnext, h.ids]
  nextMachine := by rw [hnext₁, hnext, h.nextMachine]
  symbols := Nat.le_trans hsymbols (Nat.le_trans h.symbols hsymbols₁)
  regular := h.regular
  within := fun G hG => by
    have hG := h.within G hG
    omega
  spaced := h.spaced
  tries := h.tries
  machines := h.machines

end Counted

/-! ## Machines in code -/

theorem machinesInOps_append (a b : List Op) :
    machinesInOps (a ++ b) = machinesInOps a ++ machinesInOps b := by
  induction a with
  | nil => rfl
  | cons op ops ih => rw [cons_append, machinesInOps, machinesInOps, ih, List.append_assoc]

namespace Code

/-- The machines in code. -/
def machines (c : Code) : List Machine := machinesInOps c.ops ++ c.states.flatMap machinesInOps

theorem machines_append (a b : Code) : (a ++ b).machines.Perm (a.machines ++ b.machines) := by
  obtain ⟨ops, ss⟩ := a
  induction ss generalizing ops with
  | nil =>
    rw [mk_nil_append]
    simp [machines, machinesInOps_append]
  | cons s ss ih =>
    have hih := ih s
    simp only [machines, mk_cons_append, flatMap_cons] at hih ⊢
    rw [List.append_assoc]
    exact hih.append_left _

theorem machines_now (ops : List Op) : (now ops).machines = machinesInOps ops := List.append_nil _

/-- Ops without machines add none. -/
theorem machines_append_now {ops : List Op} (h : machinesInOps ops = []) (c : Code) :
    (c ++ now ops).machines.Perm c.machines := by
  refine (machines_append _ _).trans (List.Perm.of_eq ?_)
  rw [machines_now, h, List.append_nil]

theorem machinesInOps_sealing {op : Op} (hop : machinesInOp op = []) (cur : List Op) :
    machinesInOps (sealing cur op) = [] := by
  unfold sealing
  split
  · rfl
  · rw [machinesInOps, hop]
    rfl

theorem machines_sealed {op : Op} (hop : machinesInOp op = []) (cur : List Op) (c : Code) :
    (c.sealed cur op).machines.Perm c.machines :=
  machines_append_now (machinesInOps_sealing hop _) c

theorem machines_append_opened (c : Code) : (c ++ opened).machines.Perm c.machines :=
  machines_append c opened |>.trans <|
  .of_eq (List.append_nil _)

end Code

end Lowering

end Resumable
