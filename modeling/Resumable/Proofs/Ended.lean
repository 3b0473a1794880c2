import Resumable.Proofs.Placed

/-!
# States come to an end

No state that lowering leaves behind can be passed: its last op jumps, suspends, finishes or raises.

* `Code.past` are the states that code leaves behind;
* `Made.ended`: every one of them ends, and so does every state of a nested machine.
-/

namespace Resumable

open List

namespace Lowering

open Code

namespace Code

/-- All but the last of the ops and the states. -/
def pastOf : List Op → List (List Op) → List (List Op)
  | _, [] => []
  | ops, s :: ss => ops :: pastOf s ss

/-- The states that code leaves behind, if it starts behind the ops `cur`. -/
def past (cur : List Op) (c : Code) : List (List Op) := pastOf (cur ++ c.ops) c.states

@[simp] theorem past_opened (cur : List Op) : past cur opened = [cur] := by
  simp [past, opened, pastOf]

theorem past_append (cur : List Op) (a b : Code) :
    past cur (a ++ b) = past cur a ++ past (a.stop cur) b := by
  obtain ⟨ops, ss⟩ := a
  induction ss generalizing cur ops with
  | nil => simp [past, pastOf]
  | cons s ss ih =>
    have h := ih [] s
    simp only [past, nil_append, mk_cons_append, pastOf, stop_mk_cons, cons_append] at h ⊢
    rw [h]

theorem past_concat (cur ops last : List Op) (ss : List (List Op)) :
    past cur ⟨ops, ss ++ [last]⟩ = (cur ++ ops) :: ss := by
  have h : ∀ first : List Op, pastOf first (ss ++ [last]) = first :: ss := by
    induction ss with
    | nil => exact fun _ => rfl
    | cons s ss ih => exact fun first => congrArg (first :: ·) (ih s)
  exact h _

/-- Every state of code is left behind, or it is the last one. -/
theorem mem_past_or_stop {c : Code} {s : List Op} (hs : s ∈ c.ops :: c.states) :
    s ∈ c.past [] ∨ s = c.stop [] := by
  obtain ⟨ops, ss⟩ := c
  induction ss generalizing ops with
  | nil => exact .inr (mem_singleton.mp hs)
  | cons s' ss ih =>
    rcases mem_cons.mp hs with rfl | hs
    · exact .inl mem_cons_self
    · exact (ih s' hs).imp_left (mem_cons_of_mem _)

theorem endsTerminal_stop_sealed {op : Op} (hop : op.isTerminal) (cur : List Op) (c : Code) :
    endsTerminal ((c.sealed cur op).stop cur) := by
  rw [sealed, stop_append, stop_now]
  unfold sealing
  split
  · next h =>
    rw [List.append_nil]
    exact h
  · rw [endsTerminal_append (cons_ne_nil _ _)]
    exact hop

end Code

/-- All states that code leaves behind end, and so do all states of machines in it. -/
structure Ended (cur : List Op) (c : Code) : Prop where
  past : ∀ s ∈ c.past cur, endsTerminal s
  machines : ∀ m ∈ c.machines, ∀ s ∈ m.states, endsTerminal s.ops

namespace Ended

variable {cur ops : List Op} {a b c : Code} {op : Op}

theorem now (h : machinesInOps ops = []) : Ended cur (.now ops) where
  past := nofun
  machines := fun m hm => by
    rw [machines_now, h] at hm
    cases hm

theorem opened (h : endsTerminal cur) : Ended cur .opened where
  past := fun s hs => by
    rw [past_opened, mem_singleton] at hs
    rw [hs]
    exact h
  machines := nofun

theorem append (ha : Ended cur a) (hb : Ended (a.stop cur) b) : Ended cur (a ++ b) where
  past := fun s hs => by
    rw [past_append] at hs
    exact (mem_append.mp hs).elim (ha.past s) (hb.past s)
  machines := fun m hm =>
    (mem_append.mp ((machines_append a b).mem_iff.mp hm)).elim (ha.machines m) (hb.machines m)

theorem sealed (h : Ended cur c) (hop : machinesInOp op = []) : Ended cur (c.sealed cur op) := by
  refine h.append (.now ?_)
  unfold Code.sealing
  split
  · rfl
  · rw [machinesInOps, hop]
    rfl

/-- A machine whose code comes to an end has only states that do. -/
theorem machine (h : Ended [] c) (hstop : endsTerminal (c.stop [])) (id : MachineId)
    (selector : SymbolId) : ∀ s ∈ (c.machine id selector).states, endsTerminal s.ops := by
  intro s hs
  obtain ⟨place, hplace⟩ := mem_iff_getElem?.mp hs
  have hnumbered : (numbered 1 (c.ops :: c.states))[place]? = some s := hplace
  rw [getElem?_numbered] at hnumbered
  obtain ⟨ops, hops, rfl⟩ := Option.map_eq_some_iff.mp hnumbered
  rcases mem_past_or_stop (mem_of_getElem? hops) with hover | hlast
  · exact h.past ops hover
  · rw [MachineState.ops, hlast]
    exact hstop

end Ended

/-- Code of the phrase starts with a state of its own. -/
def Phrase.Apart : Phrase → Prop
  | cases _ _ => True
  | handlers _ _ => True
  | scope p => p.Apart
  | _ => False

/-- Control never passes the code of the phrase. -/
def Phrase.Stops : Phrase → Prop
  | cases _ _ => True
  | handlers _ _ => True
  | guarded _ _ _ _ => True
  | _ => False

section Rules

variable {ctx : Context} {L L' : Ledger} {cur ops : List Op} {p : Phrase} {code : Code}

theorem machinesInOps_inits (init : Option Expr) (x : SymbolId) :
    machinesInOps (init.toList.map (Op.assign x)) = [] := by
  cases init with
  | none | some => rfl

/-- The states of code that is ended come to an end. -/
theorem Ended.states {op : Op} (h : Ended [] code) (hop : op.isTerminal)
    (hmachines : machinesInOp op = []) : ∀ s ∈ (code.sealed [] op).states, endsTerminal s := by
  intro s hs
  rcases mem_past_or_stop (mem_cons_of_mem _ hs) with hover | hlast
  · exact (h.sealed hmachines).past s hover
  · rw [hlast]
    exact endsTerminal_stop_sealed hop [] code

theorem split_ended {test : Expr} {Y N : Code} {tag : Tag} (hY : Ended [] Y) (hN : Ended [] N) :
    Ended cur (Code.sealed cur
      (.now [.cond test (Y.sealed [] (.jump tag)).ops (N.sealed [] (.jump tag)).ops])
        (.jump tag) ++
      ⟨[], (Y.sealed [] (.jump tag)).states ++ (N.sealed [] (.jump tag)).states ++ [[]]⟩) := by
  have hmachines : ∀ m, m ∈ (Y.sealed [] (.jump tag)).machines ∨
      m ∈ (N.sealed [] (.jump tag)).machines →
      ∀ s ∈ m.states, endsTerminal s.ops := fun m hm =>
    hm.elim ((hY.sealed rfl).machines m) ((hN.sealed rfl).machines m)
  refine .append (Ended.sealed ⟨nofun, fun m hm => hmachines m ?_⟩ rfl)
    ⟨fun s hs => ?_, fun m hm => hmachines m ?_⟩
  · rw [machines_now] at hm
    simp only [machinesInOps, machinesInOp, List.append_nil, mem_append] at hm
    exact hm.imp (mem_append_left _) (mem_append_left _)
  · rw [past_concat, List.append_nil] at hs
    rcases mem_cons.mp hs with rfl | hs
    · exact endsTerminal_stop_sealed rfl cur _
    · exact (mem_append.mp hs).elim (hY.states rfl rfl s) (hN.states rfl rfl s)
  · simp only [Code.machines, machinesInOps, nil_append, flatMap_append, flatMap_cons,
      flatMap_nil, List.append_nil, mem_append] at hm
    exact hm.imp (mem_append_right _) (mem_append_right _)

theorem loop_ended {shape : Part.LoopShape} {loc : Location}
    (hstart : machinesInOps shape.start = []) (hcode : Ended shape.start code) :
    Ended cur (.now (Code.sealing cur (.jump (shape.entry L))) ++ .opened ++ .now shape.start ++
      code.sealed shape.start (.jump (shape.again L)) ++ ⟨[], shape.tail loc L⟩) := by
  have hentry : endsTerminal (Code.stop cur (.now (Code.sealing cur (.jump (shape.entry L))))) := by
    rw [← sealed_nil]
    exact endsTerminal_stop_sealed rfl cur (.now [])
  have htail : Ended ((code.sealed shape.start (.jump (shape.again L))).stop shape.start)
      ⟨[], shape.tail loc L⟩ := by
    refine ⟨fun s hs => ?_, fun m hm => ?_⟩
    · have htail : shape.tail loc L =
          ((if shape.update.isEmpty then [] else [shape.updateOps loc L]) ++ [shape.testOps L]) ++
          [[]] := by
        rw [Part.LoopShape.tail, List.append_assoc]
        rfl
      rw [htail, past_concat, List.append_nil] at hs
      rcases mem_cons.mp hs with rfl | hs
      · exact endsTerminal_stop_sealed rfl shape.start code
      · rcases mem_append.mp hs with hs | hs
        · split at hs
          · cases hs
          · rw [mem_singleton.mp hs, Part.LoopShape.updateOps,
              endsTerminal_append (cons_ne_nil _ _)]
            rfl
        · rw [mem_singleton.mp hs]
          unfold Part.LoopShape.testOps
          split
          · rfl
          · rfl
    · rw [machines_tail] at hm
      cases hm
  have hentered : Ended cur (.now (Code.sealing cur (.jump (shape.entry L))) ++ .opened ++
      .now shape.start) := by
    refine ((Ended.now ?_).append (.opened hentry)).append (.now hstart)
    unfold Code.sealing
    split
    · rfl
    · rfl
  have hstop : Code.stop cur (.now (Code.sealing cur (.jump (shape.entry L))) ++ .opened ++
      .now shape.start) =
      shape.start := by
    rw [stop_append, stop_append, stop_opened, stop_now, nil_append]
  refine (hentered.append ?_).append ?_
  · rw [hstop]
    exact hcode.sealed rfl
  · rw [stop_append, hstop]
    exact htail

theorem tryCatch_ended {xs : List SymbolId} {hs : List Handler} {inner X : Code} {tag tag' : Tag}
    {m : MachineId} {g : Ledger.GuardNames} (hinner : Ended [] inner)
    (hstop : endsTerminal (inner.stop [])) (hX : Ended [] X) (hend : endsTerminal (X.stop [])) :
    Ended cur (.now (g.reset xs ++ [.jump tag]) ++ .opened ++
      .now [g.op m xs hs inner, .jump tag'] ++ .opened ++ X ++ .opened) := by
  have hreset : Ended cur (.now (g.reset xs ++ [.jump tag])) := by
    refine .now ?_
    rw [machinesInOps_append, machinesInOps_reset]
    rfl
  have hguard : Ended [] (.now [g.op m xs hs inner, .jump tag']) := by
    refine ⟨nofun, fun m' hm => ?_⟩
    rw [machines_now, machinesInOps_guarded] at hm
    rcases mem_cons.mp hm with rfl | hm
    · exact hinner.machine hstop m g.selector
    · exact hinner.machines m' hm
  refine ((((hreset.append (.opened ?_)).append ?_).append (.opened ?_)).append ?_).append
    (.opened ?_)
  · rw [stop_now, endsTerminal_append (append_ne_nil_of_right_ne_nil _ (cons_ne_nil _ _)),
      endsTerminal_append (cons_ne_nil _ _)]
    rfl
  · rw [stop_append, stop_opened]
    exact hguard
  · rw [stop_append, stop_append, stop_opened]
    rfl
  · rw [stop_append, stop_opened]
    exact hX
  · rw [stop_append, stop_append, stop_opened]
    exact hend

/-- **States come to an end**: control never passes a state that lowering leaves behind. -/
theorem Made.ended (h : Made ctx L cur p code L') (hapart : p.Apart → endsTerminal cur)
    (hsimple : p.Simple) : Ended cur code ∧ (p.Stops → endsTerminal (code.stop cur)) := by
  induction h with
  | plain | nil | noBranch | noFinal => exact ⟨.now rfl, False.elim⟩
  | declare => exact ⟨.now (machinesInOps_inits _ _), False.elim⟩
  | emit =>
    refine ⟨(Ended.now rfl).append (.opened ?_), False.elim⟩
    rw [stop_now, endsTerminal_append (cons_ne_nil _ _)]
    rfl
  | emitAll =>
    refine ⟨((Ended.now rfl).append (.opened ?_)).append (.now ?_), False.elim⟩
    · rw [stop_now, endsTerminal_append (cons_ne_nil _ _)]
      rfl
    · split
      · rfl
      · rfl
  | block _ _ ih | loopStmt _ _ _ ih | switch _ _ _ _ ih | labeledLoop _ _ _ _ ih | branch _ ih
  | forLoop _ _ _ ih
  | forEach _ _ ih | handler _ ih | final _ ih => exact ⟨(ih False.elim trivial).1, False.elim⟩
  | cond _ _ _ _ ihYes ihNo =>
    refine ⟨⟨forall_mem_nil _, fun m hm => ?_⟩, False.elim⟩
    simp only [machines_now, machinesInOps, machinesInOp, List.append_nil, mem_append] at hm
    rw [← machines_now, ← machines_now] at hm
    exact hm.elim ((ihYes False.elim trivial).1.machines m) ((ihNo False.elim trivial).1.machines m)
  | split _ _ _ _ _ _ ihYes ihNo =>
    exact ⟨split_ended (ihYes False.elim trivial).1 (ihNo False.elim trivial).1, False.elim⟩
  | labeled _ _ _ _ _ ih =>
    refine ⟨((ih False.elim trivial).1.sealed rfl).append (.opened ?_), False.elim⟩
    exact endsTerminal_stop_sealed rfl _ _
  | synchronized _ _ _ _ ih =>
    refine ⟨⟨forall_mem_nil _, fun m hm => ?_⟩, False.elim⟩
    simp only [machines_now, machinesInOps, machinesInOp, List.append_nil] at hm
    rw [← machines_now] at hm
    exact (ih False.elim trivial).1.machines m hm
  | ret hroute | brk _ hroute
  | cont _ hroute => exact ⟨.now (machinesInOps_route hroute), False.elim⟩
  | tryCatch _ _ _ _ _ _ _ _ hsettle _ ihInner ihCode =>
    obtain ⟨hinner, hstop⟩ := ihInner False.elim trivial
    have hcode := (ihCode False.elim trivial).1.append (.now (machinesInOps_settle hsettle))
    exact ⟨tryCatch_ended hinner (hstop trivial) (hcode.sealed rfl)
      (endsTerminal_stop_sealed rfl _ _), False.elim⟩
  | cons _ _ ihHead ihTail =>
    exact ⟨(ihHead False.elim trivial).1.append (ihTail False.elim trivial).1, False.elim⟩
  | scope _ ih =>
    refine ⟨(ih hapart hsimple).1.append (.now ?_), False.elim⟩
    split
    · rfl
    · exact machinesInOps_clears _
  | whileLoop _ _ ih | doWhile _ _ ih => exact ⟨(ih False.elim rfl).1, False.elim⟩
  | counting _ _ ihInit ihLoop =>
    exact ⟨(ihInit False.elim trivial).1.append (ihLoop False.elim rfl).1, False.elim⟩
  | each _ _ _ _ _ ih => exact ⟨(Ended.now rfl).append (ih False.elim rfl).1, False.elim⟩
  | loop _ _ _ ih => exact ⟨loop_ended hsimple (ih False.elim trivial).1, False.elim⟩
  | @choice _ L cur selector cases tags _ _ _ _ _ _ ih =>
    have hchoose : endsTerminal (Code.stop cur
        (.now (chooseOps selector (armsOf (cases.zip tags)) (L.tagAt 0)))) := by
      rw [stop_now, chooseOps, endsTerminal_append (cons_ne_nil _ _)]
      split
      · next hdefault => exact hdefault
      · rfl
    obtain ⟨hcode, hstop⟩ := ih (fun _ => hchoose) trivial
    refine ⟨((Ended.now ?_).append hcode).append (.opened ?_), False.elim⟩
    · split
      · rfl
      · rfl
    · rw [stop_append]
      exact hstop trivial
  | noCases | noHandlers => exact ⟨.now rfl, fun _ => by simpa using hapart trivial⟩
  | case _ _ _ ihBody ihRest | handlers _ _ _ _ ihBody ihRest =>
    obtain ⟨hrest, hstop⟩ := ihRest (fun _ => endsTerminal_stop_sealed rfl [] _) trivial
    refine ⟨((Ended.opened (hapart trivial)).append
      ((ihBody False.elim trivial).1.sealed rfl)).append ?_, fun _ => ?_⟩
    · rw [stop_append]
      exact hrest
    · rw [stop_append, stop_append]
      exact hstop trivial
  | opening _ ih =>
    exact ⟨(Ended.now (machinesInOps_initOps _)).append (ih False.elim trivial).1, False.elim⟩
  | guarded _ _ ihBody ihHandlers =>
    obtain ⟨hrest, hstop⟩ := ihHandlers (fun _ => endsTerminal_stop_sealed rfl _ _) trivial
    refine ⟨((ihBody False.elim trivial).1.sealed rfl).append hrest, fun _ => ?_⟩
    rw [stop_append]
    exact hstop trivial

end Rules

end Lowering

end Resumable
