import Resumable.Proofs.Every

/-!
# Code under locks

Ops under a lock stay in their state, and plain statements emit nothing.

* `Op.isLockable` says which ops may stand under a lock;
* `Op.Tame` says of an op that it has lockable code under its lock, or is a plain statement that
  stays in its state, and `Machine.Tame` says it of every op of a machine;
* `Stmt.leaves_of_lies`: all that is in a statement that stays in its state stays there;
* `Made.fits`: all code that is made is tame, and code that opens no state is lockable, which is all
  that a lock asks for.
-/

namespace Resumable

open List

/-! ## Ops -/

/-- Whether the op may stand under a lock: it stays in its state, or leaves it for good. -/
def Op.isLockable : Op → Bool
  | .plain _ | .assign _ _ | .clear _ | .jump _ | .finish | .cond _ _ _ | .synchronized _ _ => true
  | .setState _ | .yield _ | .switch _ _ | .guarded _ _ | .rethrow _ => false

/-- The ops may stand under a lock, with all ops in them. -/
def Lockable (ops : List Op) : Prop := ∀ op ∈ insideOps ops, op.isLockable

/-- The code under the lock of an op is lockable, and a plain statement stays in its state. -/
def Op.Tame (markers : Markers) : Op → Prop
  | .plain s => s.needsLowering markers = false
  | .synchronized _ body => Lockable body
  | _ => True

/-- All ops of the machine, and of those in it, are tame. -/
def Machine.Tame (markers : Markers) (M : Machine) : Prop := M.Every (Op.Tame markers)

section Lists

variable {a b : List Op}

theorem insideOps_append (a b : List Op) : insideOps (a ++ b) = insideOps a ++ insideOps b := by
  induction a with
  | nil => rfl
  | cons op a ih => rw [cons_append, insideOps, insideOps, ih, List.append_assoc]

theorem Lockable.append (ha : Lockable a) (hb : Lockable b) : Lockable (a ++ b) := by
  intro op hop
  rw [insideOps_append, mem_append] at hop
  exact hop.elim (ha op) (hb op)

theorem lockable_nil : Lockable [] := forall_mem_nil _

theorem lockable_cons {op : Op} (hop : ∀ o ∈ op.inside, o.isLockable) (ha : Lockable a) :
    Lockable (op :: a) := by
  intro o ho
  rw [insideOps, mem_append] at ho
  exact ho.elim (hop o) (ha o)

/-- An op without ops in it. -/
theorem lockable_leaf {op : Op} (hinside : op.inside = [op]) (hop : op.isLockable) :
    ∀ o ∈ op.inside, o.isLockable := by
  rw [hinside]
  simpa using hop

theorem lockable_clears (xs : List SymbolId) : Lockable (xs.map Op.clear) := by
  induction xs with
  | nil => exact lockable_nil
  | cons x xs ih => exact lockable_cons (lockable_leaf rfl rfl) ih

end Lists

/-! ## Statements -/

namespace Stmt

/-- Whether the statement is a marker that emits. -/
def isMarker (m : Markers) : Stmt → Bool
  | expr e _ => (e.asMarker? m).isSome
  | _ => false

theorem isMarker_of_leaves {m : Markers} {within : Enclosure} {s : Stmt}
    (h : s.leaves m within = false) : s.isMarker m = false := by
  cases s with
  | expr e =>
    cases hmarker : e.asMarker? m with
    | none => rw [isMarker, hmarker]; rfl
    | some marker =>
      -- a marker is found in the expression that it is
      obtain ⟨name, hfound⟩ : ∃ name, e.findMarker? m = some name := by
        cases e with
        | call => exact ⟨m.name marker.1, by rw [Expr.findMarker?, hmarker]⟩
        | _ => cases hmarker
      rw [leaves, hfound] at h
      cases h
  | _ => rfl

section Leaving

variable {m : Markers} {w : Enclosure} {s : Stmt}

theorem leaves_of_leavesAny {ss : List Stmt} (h : leavesAny m w ss = false) :
    ∀ t ∈ ss, t.leaves m w = false := by
  induction ss with
  | nil => simp
  | cons s ss ih => exact forall_mem_cons.mpr ((Bool.or_eq_false_iff.mp h).imp_right ih)

theorem leaves_of_leavesCases {cs : List SwitchCase} (h : leavesCases m w cs = false) :
    ∀ t ∈ cs.flatMap SwitchCase.body, t.leaves m w = false := by
  induction cs with
  | nil => simp
  | cons c cs ih =>
    obtain ⟨labels, isDefault, body⟩ := c
    obtain ⟨hbody, hcs⟩ := Bool.or_eq_false_iff.mp h
    exact forall_mem_append.mpr ⟨leaves_of_leavesAny hbody, ih hcs⟩

theorem leaves_of_leavesCatches {cs : List CatchClause} (h : leavesCatches m w cs = false) :
    ∀ t ∈ cs.flatMap CatchClause.body, t.leaves m w = false := by
  induction cs with
  | nil => simp
  | cons c cs ih =>
    obtain ⟨param, types, body⟩ := c
    obtain ⟨hbody, hcs⟩ := Bool.or_eq_false_iff.mp h
    exact forall_mem_append.mpr ⟨leaves_of_leavesAny hbody, ih hcs⟩

/-- Where nothing inside a statement leaves, nothing inside its parts does. -/
theorem leaves_children (h : s.leaves m w = false) :
    ∀ t ∈ s.children, ∃ w' : Enclosure, t.leaves m w' = false := by
  have hone : ∀ {w : Enclosure} {t : Stmt}, t.leaves m w = false →
      ∀ u ∈ [t], u.leaves m w = false :=
    fun ht u hu => mem_singleton.mp hu ▸ ht
  have hsame : ∀ w' : Enclosure, (∀ t ∈ s.children, t.leaves m w' = false) →
      ∀ t ∈ s.children, ∃ w' : Enclosure, t.leaves m w' = false :=
    fun w' hchildren t ht => ⟨w', hchildren t ht⟩
  cases s with
  | block => exact hsame w (leaves_of_leavesAny h)
  | cond test yes no =>
    simp only [leaves, Bool.or_eq_false_iff] at h
    refine hsame w (forall_mem_cons.mpr ⟨h.1.2, ?_⟩)
    cases no with
    | none => exact forall_mem_nil _
    | some => exact hone h.2
  | whileLoop | doWhile
  | forEach => exact hsame { w with inLoop := true } (hone (Bool.or_eq_false_iff.mp h).2)
  | forLoop =>
    simp only [leaves, Bool.or_eq_false_iff] at h
    exact forall_mem_append.mpr ⟨fun t ht => ⟨w, leaves_of_leavesAny h.1.1.1 t ht⟩,
      fun t ht => ⟨{ w with inLoop := true }, hone h.2 t ht⟩⟩
  | switch =>
    exact hsame { w with inSwitch := true } (leaves_of_leavesCases (Bool.or_eq_false_iff.mp h).2)
  | tryCatch resources body catches final =>
    simp only [leaves, Bool.or_eq_false_iff] at h
    have hbody := leaves_of_leavesAny h.1.1.2
    refine hsame w (forall_mem_append.mpr
      ⟨forall_mem_append.mpr ⟨hbody, leaves_of_leavesCatches h.1.2⟩, ?_⟩)
    cases final with
    | none => exact forall_mem_nil _
    | some => exact leaves_of_leavesAny h.2
  | labeled label => exact hsame { w with labels := label :: w.labels } (hone h)
  | synchronized => exact hsame w (leaves_of_leavesAny (Bool.or_eq_false_iff.mp h).2)
  | _ => exact forall_mem_nil _

/-- Nothing inside a statement leaves where it stands. -/
theorem leaves_of_lies {path : List Stmt} {t : Stmt} (h : s.leaves m w = false)
    (ht : Lies [s] path t) : ∃ w' : Enclosure, t.leaves m w' = false := by
  induction ht with
  | top ht => exact ⟨w, mem_singleton.mp ht ▸ h⟩
  | inner _ ht ih =>
    obtain ⟨w₁, hw₁⟩ := ih
    exact leaves_children hw₁ _ ht

end Leaving

/-- The code under a lock in a statement that stays in its state holds no marker. -/
theorem isMarker_of_locked {m : Markers} {s t : Stmt} {e : Expr} {body path inner : List Stmt}
    {loc : Location} (h : s.needsLowering m = false)
    (hlock : Lies [s] path (synchronized e body loc)) (ht : Lies body inner t) :
    t.isMarker m = false := by
  have hinside : Lies [s] (inner ++ synchronized e body loc :: path) t := hlock.within ht
  obtain ⟨w, hw⟩ := leaves_of_lies h hinside
  exact isMarker_of_leaves hw

end Stmt

/-! ## Machines -/

section Machines

variable {markers : Markers} {M : Machine}

theorem Machine.Tame.machines (h : M.Tame markers) : ∀ m ∈ M.machines, m.Tame markers :=
  Machine.Every.machines h

theorem Machine.Tame.ops (h : M.Tame markers) : ∀ op ∈ M.ops, op.Every (Op.Tame markers) := by
  obtain ⟨id, selector, states⟩ := M
  intro op hop
  obtain ⟨s, hs, hop⟩ := mem_flatMap.mp hop
  exact (EveryState.ops h s hs).inside op hop

end Machines

namespace Lowering

/-! ## Code -/

theorem tame_moves (markers : Markers) : Moves (Op.Tame markers) :=
  ⟨fun _ => trivial, fun _ => trivial, trivial⟩

/-- What a loop starts each round with is tame, and its updates hold no markers. -/
def Phrase.Tame (markers : Markers) : Phrase → Prop
  | loop shape _ _ =>
    EveryOp (Op.Tame markers) shape.start ∧ ∀ e ∈ shape.update, e.findMarker? markers = none
  | counting _ _ _ update _ _ => ∀ e ∈ update, e.findMarker? markers = none
  | scope p => p.Tame markers
  | _ => True

/-- Tame code, which is lockable unless it opens a state. -/
structure Code.Fits (markers : Markers) (c : Code) : Prop where
  tame : c.Every (Op.Tame markers)
  lockable : c.states = [] → Lockable c.ops

namespace Code.Fits

variable {markers : Markers} {a b c : Code} {ops : List Op}

theorem now (h : EveryOp (Op.Tame markers) ops) (hlock : Lockable ops) :
    Code.Fits markers (.now ops) where
  tame := .now h
  lockable := fun _ => hlock

/-- Code that opens a state is never under a lock. -/
theorem of_open (h : c.Every (Op.Tame markers)) (hopen : c.states ≠ []) : Code.Fits markers c where
  tame := h
  lockable := fun hnone => absurd hnone hopen

theorem append (ha : a.Fits markers) (hb : b.Fits markers) : (a ++ b).Fits markers where
  tame := ha.tame.append hb.tame
  lockable := fun hnone => by
    have hlength := congrArg List.length hnone
    rw [Code.length_states_append, length_nil, Nat.add_eq_zero_iff] at hlength
    obtain ⟨ops, ss⟩ := a
    obtain rfl := eq_nil_of_length_eq_zero hlength.1
    exact (ha.lockable rfl).append (hb.lockable (eq_nil_of_length_eq_zero hlength.2))

/-- An op without ops in it ends code. -/
theorem sealed {op : Op} (h : c.Fits markers) (cur : List Op) (hop : op.Every (Op.Tame markers))
    (hinside : op.inside = [op]) (hlock : op.isLockable) : (c.sealed cur op).Fits markers := by
  refine h.append (.now (Code.Every.sealing op hop _) ?_)
  unfold Code.sealing
  split
  · exact lockable_nil
  · exact lockable_cons (lockable_leaf hinside hlock) lockable_nil

theorem jump (h : c.Fits markers) (cur : List Op) (tag : Tag) :
    (c.sealed cur (.jump tag)).Fits markers :=
  h.sealed cur trivial rfl rfl

theorem finish (h : c.Fits markers) (cur : List Op) : (c.sealed cur .finish).Fits markers :=
  h.sealed cur trivial rfl rfl

end Code.Fits

section Rules

variable {ctx : Context} {L L' : Ledger} {cur ops : List Op} {p : Phrase} {code : Code}

theorem states_append_opened (a : Code) : (a ++ .opened).states ≠ [] := by
  intro hnone
  have hlength := congrArg List.length hnone
  simp [Code.opened] at hlength

theorem fits_inits (markers : Markers) (init : Option Expr) (x : SymbolId) :
    Code.Fits markers (.now (init.toList.map (Op.assign x))) := by
  cases init with
  | none => exact .now trivial lockable_nil
  | some => exact .now ⟨trivial, trivial⟩ (lockable_cons (lockable_leaf rfl rfl) lockable_nil)

theorem fits_initOps (resources : List (SymbolId × Option Expr)) :
    Code.Fits ctx.markers (.now (initOps resources)) := by
  induction resources with
  | nil => exact .now trivial lockable_nil
  | cons r resources ih =>
    have h := (fits_inits ctx.markers r.2 r.1).append ih
    rwa [Code.now_append] at h

theorem fits_clears (xs : List SymbolId) : Code.Fits ctx.markers (.now (xs.map Op.clear)) :=
  .now (every_clears fun _ _ => trivial) (lockable_clears xs)

theorem fits_route {tag : Tag} (h : L.route ctx tag = .ok (ops, L')) :
    Code.Fits ctx.markers (.now ops) := by
  have hclears : Code.Fits ctx.markers (.now (L.exitClears ctx tag)) := fits_clears _
  unfold Ledger.route at h
  split at h
  · cases h
    refine hclears.append (b := .now _) (.now ?_ ?_)
    · split
      · exact ⟨trivial, trivial⟩
      · exact ⟨trivial, trivial⟩
    · refine lockable_cons ?_ lockable_nil
      split
      · exact lockable_leaf rfl rfl
      · exact lockable_leaf rfl rfl
  · split at h
    · cases h
    · cases h
      exact hclears.append (b := .now _) (.now ⟨trivial, trivial, trivial⟩
        (lockable_cons (lockable_leaf rfl rfl)
          (lockable_cons (lockable_leaf rfl rfl) lockable_nil)))

theorem tame_settle {g : Ledger.GuardNames} {exits : List Tag}
    (h : settleOps L ctx cur g exits = .ok (ops, L')) : EveryOp (Op.Tame ctx.markers) ops :=
  every_settle (tame_moves _) (fun _ _ => trivial) (fun _ _ _ => trivial)
    (fun _ _ _ _ => trivial) trivial h

theorem tame_update {e : Expr} {loc : Location} (he : NoMarker ctx e) :
    (Op.plain (.expr e loc)).Tame ctx.markers := by
  rw [Op.Tame, Stmt.needsLowering, Stmt.leaves, he]
  rfl

/-- **All code is tame**, and code that opens no state is lockable. -/
theorem Made.fits (h : Made ctx L cur p code L') (hp : p.Tame ctx.markers) :
    code.Fits ctx.markers := by
  induction h with
  | plain hplain =>
    exact .now ⟨hplain, trivial⟩ (lockable_cons (lockable_leaf rfl rfl) lockable_nil)
  | @declare ctx _ _ d _ x => exact fits_inits _ d.init x
  | @emit ctx L cur e arg =>
    have hnow : EveryOp (Op.Tame ctx.markers) [.setState (L.tagAt 0), .yield arg] :=
      ⟨trivial, trivial, trivial⟩
    exact .of_open ((Code.Every.now hnow).append .opened) (states_append_opened _)
  | @emitAll ctx L cur e arg loc type x =>
    have hnow : EveryOp (Op.Tame ctx.markers) [.assign L.nextSymbol arg, .jump (L.tagAt 0)] :=
      ⟨trivial, trivial, trivial⟩
    have hpoll : EveryOp (Op.Tame ctx.markers)
        (.cond (Part.callOn x "hasNext") [.yield (Part.callOn x "next")] [] ::
          if livenessOf ctx type = .clearedAtScopeEnd then [.clear L.nextSymbol] else []) := by
      refine ⟨⟨trivial, ⟨trivial, trivial⟩, trivial⟩, ?_⟩
      split
      · exact ⟨trivial, trivial⟩
      · trivial
    refine .of_open (((Code.Every.now hnow).append .opened).append (.now hpoll)) fun hnone => ?_
    cases hnone
  | block _ _ ih | loopStmt _ _ _ ih | switch _ _ _ _ ih | labeledLoop _ _ _ _ ih | branch _ ih
  | forEach _ _ ih
  | handler _ ih | final _ ih => exact ih trivial
  | cond _ _ _ _ ihYes ihNo =>
    have hyes := ihYes trivial
    have hno := ihNo trivial
    refine .now ⟨⟨trivial, hyes.tame.ops, hno.tame.ops⟩, trivial⟩
      (lockable_cons (fun op hop => ?_) lockable_nil)
    rcases mem_cons.mp hop with rfl | hop
    · rfl
    · exact (mem_append.mp hop).elim (hyes.lockable rfl op) (hno.lockable rfl op)
  | split _ _ _ _ _ _ ihYes ihNo =>
    refine .of_open (every_split (tame_moves _) (fun _ _ => trivial) (ihYes trivial).tame
      (ihNo trivial).tame) fun hnone => ?_
    have hlength := congrArg List.length hnone
    simp at hlength
  | labeled _ _ _ _ _ ih =>
    exact .of_open (((ih trivial).jump _ _).tame.append .opened) (states_append_opened _)
  | synchronized _ _ _ _ ih =>
    -- the code stays in its state, so it may stand under the lock
    have hbody := ih trivial
    refine .now ⟨⟨hbody.lockable rfl, hbody.tame.ops⟩, trivial⟩
      (lockable_cons (fun op hop => ?_) lockable_nil)
    rcases mem_cons.mp hop with rfl | hop
    · rfl
    · exact hbody.lockable rfl op hop
  | ret hroute | brk _ hroute | cont _ hroute => exact fits_route hroute
  | tryCatch _ _ _ _ _ _ _ _ hsettle _ ihInner ihCode =>
    exact .of_open (every_tryCatch (tame_moves _) (fun _ _ _ => trivial) trivial
      (ihInner trivial).tame
      ((ihCode trivial).tame.append (.now (tame_settle hsettle)))) (states_append_opened _)
  | nil | noBranch | noCases | noHandlers | noFinal => exact .now trivial lockable_nil
  | cons _ _ ihHead ihTail => exact (ihHead trivial).append (ihTail trivial)
  | scope _ ih =>
    refine (ih hp).append ?_
    split
    · exact .now trivial lockable_nil
    · exact fits_clears _
  | whileLoop _ _ ih | doWhile _ _ ih => exact ih ⟨trivial, nofun⟩
  | forLoop _ hupdate _ ih => exact ih hupdate
  | counting _ _ ihInit ihLoop => exact (ihInit trivial).append (ihLoop ⟨trivial, hp⟩)
  | each _ _ _ _ _ ih =>
    refine .append ?_ (ih ⟨⟨trivial, trivial⟩, nofun⟩)
    exact .now ⟨trivial, trivial⟩ (lockable_cons (lockable_leaf rfl rfl) lockable_nil)
  | loop _ _ _ ih =>
    refine .of_open (every_loop (tame_moves _) (ih trivial).tame hp.1 (fun _ _ _ => trivial)
      fun e he => tame_update (hp.2 e he)) fun hnone => ?_
    have hlength := congrArg List.length hnone
    simp [Code.opened] at hlength
  | choice _ _ _ ih =>
    exact .of_open (((Code.Every.now (every_choose (tame_moves _) trivial)).append
      (ih trivial).tame).append .opened)
      (states_append_opened _)
  | case _ _ _ ihBody ihRest =>
    refine .append (.append (.of_open .opened ?_) ((ihBody trivial).jump _ _)) (ihRest trivial)
    exact cons_ne_nil _ _
  | opening _ ih => exact (fits_initOps _).append (ih trivial)
  | handlers _ _ _ _ ihBody ihRest =>
    refine .append (.append (.of_open .opened ?_) ((ihBody trivial).finish _)) (ihRest trivial)
    exact cons_ne_nil _ _
  | guarded _ _ ihBody ihHandlers => exact ((ihBody trivial).finish _).append (ihHandlers trivial)

end Rules

end Lowering

open Lowering

/-- **Lowering gives tame machines.** -/
theorem Procedure.lower_tame {p : Procedure} {settings : Settings} {cls : GeneratorClass}
    (h : p.lower settings = .ok cls) : cls.advance.Tame settings.markers := by
  obtain ⟨b⟩ := lower_blueprint h
  rw [b.class_eq]
  have hfits : b.code.Fits settings.markers := b.made.fits trivial
  exact (hfits.finish []).tame.machine .root _

end Resumable
