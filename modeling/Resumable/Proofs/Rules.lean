import Resumable.Proofs.Defects
import Resumable.Proofs.Grammar
import Resumable.Proofs.Locks
import Resumable.Proofs.Visible

/-!
# Rules for procedures

Every error of lowering is about a rule that the procedure breaks.

* `Stmt.Breaks` states the rules: a statement, with the statements around it, breaks the rule that
  an error is about;
* `Mirrors` ties the targets of jumps that lowering knows to the statements around the one at hand;
* `Procedure.lower_breaks`: where lowering fails, it is not by a defect, and the error is about a
  rule that is broken at a place of the procedure;
* `Procedure.Lawful` collects the rules, and can be checked.
-/

namespace Resumable

open List

/-! ## The rules -/

namespace Stmt

/-- The marker that a statement is, and its argument. -/
def marker? (m : Markers) : Stmt → Option (MarkerKind × Expr)
  | expr e _ => e.asMarker? m
  | _ => none

/-- The expressions of a statement itself in which no marker may stand: of a statement that is a
marker itself, the argument. -/
def ordinary (m : Markers) (s : Stmt) : List Expr :=
  match s.marker? m with
  | some (_, arg) => [arg]
  | none => s.exprs

/-- Whether a statement takes states of its own where it has to be lowered. -/
def opensStates : Stmt → Bool
  | switch .. | labeled .. | tryCatch .. => true
  | s => s.isLoop

/-- A statement, with the statements around it, breaks the rule that the error is about. -/
inductive Breaks (m : Markers) (path : List Stmt) : Stmt → LoweringError → Prop where
  /-- a marker is a statement of its own, and its argument holds no other -/
  | marker {s e name} (he : e ∈ s.ordinary m) (hmarker : e.findMarker? m = some name) :
      Breaks m path s (.misplacedMarker name s.location)
  /-- a return has no value -/
  | ret {e loc} : Breaks m path (.ret (some e) loc) (.returnWithValue loc)
  /-- a break leaves a loop or a switch -/
  | brk {loc} (h : ∀ t ∈ path, t.isLoop = false ∧ t.isSwitch = false) :
      Breaks m path (.brk none loc) (.unmatchedBreak none loc)
  /-- a continue goes on with a loop -/
  | cont {loc} (h : ∀ t ∈ path, t.isLoop = false) :
    Breaks m path (.cont none loc) (.unmatchedContinue none loc)
  /-- a break with a label leaves the statement that carries it -/
  | labeledBrk {label loc} (h : ∀ t ∈ path, t.label? ≠ some label) :
      Breaks m path (.brk (some label) loc) (.unmatchedBreak (some label) loc)
  /-- a continue with a label goes on with the loop that carries it -/
  | labeledCont {label loc} (h : ∀ t ∈ path, t.loopLabel? ≠ some label) :
      Breaks m path (.cont (some label) loc) (.unmatchedContinue (some label) loc)
  /-- a label does not stand inside a statement with the same label -/
  | label {label body loc t} (ht : t ∈ path) (hlabel : t.label? = some label) :
      Breaks m path (.labeled label body loc) (.duplicateLabel label loc)
  /-- no marker stands under a lock -/
  | lockedMarker {s e name t} (ht : t ∈ path) (hlock : t.isLock) (he : e ∈ s.exprs)
      (hmarker : e.findMarker? m = some name) : Breaks m path s (.illegalSuspension name s.location)
  /-- what takes states of its own does not stand under a lock, unless it stays as it is -/
  | lockedStates {s t} (ht : t ∈ path) (hlock : t.isLock) (hopens : s.opensStates)
      (hneeds : s.needsLowering m) : Breaks m path s (.unsplittableLock t.location)

/-! ## The first marker -/

section Markers

variable {ss : List Stmt} {name : String}
variable {m : Markers}

/-- The marker of a statement itself is in one of its expressions. -/
theorem exprs_of_ownMarker? {s : Stmt} (h : s.ownMarker? m = some name) :
    ∃ e ∈ s.exprs, e.findMarker? m = some name := by
  cases s with
  | declare =>
    obtain ⟨e, he, hmarker⟩ := Option.bind_eq_some_iff.mp h
    exact ⟨e, Option.mem_toList.mpr he, hmarker⟩
  | forLoop => exact exists_of_findSome?_eq_some h
  | tryCatch =>
    obtain ⟨d, hd, hinit⟩ := exists_of_findSome?_eq_some h
    obtain ⟨e, he, hmarker⟩ := Option.bind_eq_some_iff.mp hinit
    exact ⟨e, mem_flatMap.mpr ⟨d, hd, Option.mem_toList.mpr he⟩, hmarker⟩
  | ret value =>
    cases value with
    | none => cases h
    | some e => exact ⟨e, mem_singleton_self e, h⟩
  | empty | block | labeled | brk | cont => cases h
  | _ => exact ⟨_, mem_cons_self, h⟩

theorem firstMarkerIn?_append (ss ts : List Stmt) :
    firstMarkerIn? m (ss ++ ts) = (firstMarkerIn? m ss).or (firstMarkerIn? m ts) := by
  induction ss with
  | nil => rfl
  | cons s ss ih => rw [cons_append, firstMarkerIn?, firstMarkerIn?, ih, Option.or_assoc]

theorem firstMarkerIn?_singleton (s : Stmt) : firstMarkerIn? m [s] = s.firstMarker? m :=
  Option.or_none

theorem firstMarkerCases?_eq (cs : List SwitchCase) :
    firstMarkerCases? m cs = firstMarkerIn? m (cs.flatMap SwitchCase.body) := by
  induction cs with
  | nil => rfl
  | cons c cs ih =>
    obtain ⟨labels, isDefault, body⟩ := c
    rw [firstMarkerCases?, firstMarkerCase?, ih, flatMap_cons, firstMarkerIn?_append]
    rfl

theorem firstMarkerCatches?_eq (cs : List CatchClause) :
    firstMarkerCatches? m cs = firstMarkerIn? m (cs.flatMap CatchClause.body) := by
  induction cs with
  | nil => rfl
  | cons c cs ih =>
    obtain ⟨param, types, body⟩ := c
    rw [firstMarkerCatches?, firstMarkerCatch?, ih, flatMap_cons, firstMarkerIn?_append]
    rfl

/-- The markers inside a statement are those of the statements directly inside it. -/
theorem innerMarker?_eq (s : Stmt) : s.innerMarker? m = firstMarkerIn? m s.children := by
  cases s with
  | cond test yes no =>
    rw [innerMarker?, children, firstMarkerIn?]
    cases no with
    | none => rfl
    | some => rw [Option.toList_some, firstMarkerIn?_singleton]; rfl
  | whileLoop test body | doWhile body | forEach var iterable body | labeled label body =>
    exact (firstMarkerIn?_singleton body).symm
  | forLoop =>
    rw [children, firstMarkerIn?_append, firstMarkerIn?_singleton]
    rfl
  | switch selector cases => exact firstMarkerCases?_eq cases
  | tryCatch resources body catches final =>
    rw [innerMarker?, children, firstMarkerIn?_append, firstMarkerIn?_append,
      firstMarkerCatches?_eq, Option.or_assoc]
    cases final <;> rfl
  | _ => rfl

theorem firstMarker?_eq (s : Stmt) :
    s.firstMarker? m = ((s.ownMarker? m).map fun name => (name, s.location)).or
      (firstMarkerIn? m s.children) := by
  rw [firstMarker?, ownMarkerOr, innerMarker?_eq]

theorem firstMarkerIn?_cons (s : Stmt) (ss : List Stmt) :
    firstMarkerIn? m (s :: ss) = (s.firstMarker? m).or (firstMarkerIn? m ss) := rfl

/-- The first marker of a list is that of one of its statements. -/
theorem firstMarkerIn?_eq_some {r : String × Location} (h : firstMarkerIn? m ss = some r) :
    ∃ s ∈ ss, s.firstMarker? m = some r := by
  induction ss with
  | nil => cases h
  | cons s ss ih =>
    rw [firstMarkerIn?_cons, Option.or_eq_some_iff] at h
    rcases h with h | ⟨-, h⟩
    · exact ⟨s, mem_cons_self, h⟩
    · obtain ⟨t, ht, hfound⟩ := ih h
      exact ⟨t, mem_cons_of_mem _ ht, hfound⟩

theorem firstMarker?_of_firstMarkerIn? (h : firstMarkerIn? m ss = none) :
    ∀ s ∈ ss, s.firstMarker? m = none := by
  induction ss with
  | nil => simp
  | cons s ss ih =>
    rw [firstMarkerIn?_cons, Option.or_eq_none_iff] at h
    exact forall_mem_cons.mpr ⟨h.1, ih h.2⟩

/-- The first marker is a marker of a statement inside, at the place of that statement. -/
theorem lies_of_firstMarker? {place : Location} (s : Stmt) : s.firstMarker? m = some (name, place) →
      (s.ownMarker? m = some name ∧ s.location = place) ∨
        ∃ path t, Lies s.children path t ∧ t.ownMarker? m = some name ∧ t.location = place := by
  induction s using Stmt.induct with
  | step s ih =>
    intro h
    rw [firstMarker?_eq, Option.or_eq_some_iff] at h
    rcases h with h | ⟨-, h⟩
    · obtain ⟨own, hown, heq⟩ := Option.map_eq_some_iff.mp h
      cases heq
      exact .inl ⟨hown, rfl⟩
    · right
      obtain ⟨t, ht, hfound⟩ := firstMarkerIn?_eq_some h
      rcases ih [] t (.top ht) hfound with hown | ⟨path, u, hu, hown⟩
      · exact ⟨[], t, .top ht, hown⟩
      · exact ⟨path ++ [t], u, (Lies.top ht).within hu, hown⟩

/-- The first marker of a list is a marker of a statement at some depth. -/
theorem lies_of_firstMarkerIn? {place : Location} (h : firstMarkerIn? m ss = some (name, place)) :
    ∃ path t, Lies ss path t ∧ t.ownMarker? m = some name ∧ t.location = place := by
  obtain ⟨s, hs, hfound⟩ := firstMarkerIn?_eq_some h
  rcases lies_of_firstMarker? s hfound with hown | ⟨path, t, ht, hown⟩
  · exact ⟨[], s, .top hs, hown⟩
  · exact ⟨path ++ [s], t, (Lies.top hs).within ht, hown⟩

/-- Where no first marker is found, no statement has one. -/
theorem firstMarker?_of_lies {path : List Stmt} {s : Stmt} (h : firstMarkerIn? m ss = none)
    (hs : Lies ss path s) : s.firstMarker? m = none := by
  induction hs with
  | top hs => exact firstMarker?_of_firstMarkerIn? h _ hs
  | inner _ hs ih =>
    rw [firstMarker?_eq, Option.or_eq_none_iff] at ih
    exact firstMarker?_of_firstMarkerIn? ih.2 _ hs

end Markers

end Stmt

/-! ## Rules and symbols -/

namespace Stmt

variable {m : Markers}

theorem marker?_unresolved (s : Stmt) :
    s.unresolved.marker? m = (s.marker? m).map fun (kind, arg) => (kind, arg.unresolved) := by
  cases s with
  | expr e => exact Expr.asMarker?_unresolved m e
  | _ => rfl

/-- Symbols do not matter for where markers may stand. -/
theorem ordinary_unresolved (s : Stmt) :
    s.unresolved.ordinary m = (s.ordinary m).map Expr.unresolved := by
  rw [ordinary, ordinary, marker?_unresolved]
  cases s.marker? m with
  | none => exact exprs_unresolved s
  | some => rfl

theorem opensStates_unresolved (s : Stmt) : s.unresolved.opensStates = s.opensStates := by
  cases s <;> rfl

/-- What a procedure breaks, it breaks without its symbols. -/
theorem Breaks.unresolved {path : List Stmt} {s : Stmt} {e : LoweringError}
    (h : s.Breaks m path e) : s.unresolved.Breaks m (path.map Stmt.unresolved) e := by
  cases h with
  | marker he hmarker =>
    rw [← location_unresolved]
    refine .marker ?_ ((Expr.findMarker?_unresolved m _).trans hmarker)
    rw [ordinary_unresolved]
    exact mem_map_of_mem he
  | ret => exact .ret
  | brk h => exact .brk (by simpa using h)
  | cont h => exact .cont (by simpa using h)
  | labeledBrk h => exact .labeledBrk (by simpa using h)
  | labeledCont h => exact .labeledCont (by simpa using h)
  | label ht hlabel => exact .label (mem_map_of_mem ht) ((label?_unresolved _).trans hlabel)
  | lockedMarker ht hlock he hmarker =>
    rw [← location_unresolved]
    refine .lockedMarker (mem_map_of_mem ht) ((isLock_unresolved _).trans hlock) ?_
      ((Expr.findMarker?_unresolved m _).trans hmarker)
    rw [exprs_unresolved]
    exact mem_map_of_mem he
  | lockedStates ht hlock hopens hneeds =>
    rw [← location_unresolved]
    exact .lockedStates (mem_map_of_mem ht) ((isLock_unresolved _).trans hlock)
      ((opensStates_unresolved s).trans hopens) ((needsLowering_unresolved m s).trans hneeds)

/-- No rule is about symbols. -/
theorem Breaks.of_unresolved {path : List Stmt} {s : Stmt} {e : LoweringError}
    (h : s.unresolved.Breaks m (path.map Stmt.unresolved) e) : s.Breaks m path e := by
  -- the rules about jumps and labels fix the kind of the statement, the others hold of any
  generalize hs : s.unresolved = t at h
  cases h with
  | marker he hmarker =>
    subst hs
    rw [ordinary_unresolved] at he
    obtain ⟨a, ha, rfl⟩ := mem_map.mp he
    rw [location_unresolved]
    exact .marker ha ((Expr.findMarker?_unresolved m a).symm.trans hmarker)
  | ret =>
    cases s with
    | ret value =>
      cases value with
      | none => cases hs
      | some =>
        cases hs
        exact .ret
    | _ => cases hs
  | brk h =>
    cases s with
    | brk =>
      cases hs
      exact .brk (by simpa using h)
    | _ => cases hs
  | cont h =>
    cases s with
    | cont =>
      cases hs
      exact .cont (by simpa using h)
    | _ => cases hs
  | labeledBrk h =>
    cases s with
    | brk =>
      cases hs
      exact .labeledBrk (by simpa using h)
    | _ => cases hs
  | labeledCont h =>
    cases s with
    | cont =>
      cases hs
      exact .labeledCont (by simpa using h)
    | _ => cases hs
  | label ht hlabel =>
    obtain ⟨u, hu, rfl⟩ := mem_map.mp ht
    cases s with
    | labeled =>
      cases hs
      exact .label hu ((label?_unresolved u).symm.trans hlabel)
    | _ => cases hs
  | lockedMarker ht hlock he hmarker =>
    subst hs
    obtain ⟨u, hu, rfl⟩ := mem_map.mp ht
    rw [exprs_unresolved] at he
    obtain ⟨a, ha, rfl⟩ := mem_map.mp he
    rw [location_unresolved]
    exact .lockedMarker hu ((isLock_unresolved u).symm.trans hlock) ha
      ((Expr.findMarker?_unresolved m a).symm.trans hmarker)
  | lockedStates ht hlock hopens hneeds =>
    subst hs
    obtain ⟨u, hu, rfl⟩ := mem_map.mp ht
    rw [location_unresolved]
    exact .lockedStates hu ((isLock_unresolved u).symm.trans hlock)
      ((opensStates_unresolved s).symm.trans hopens)
      ((needsLowering_unresolved m s).symm.trans hneeds)

end Stmt

namespace Lowering

variable {ctx : Context} {vis : List SymbolId}

/-! ## Code that stays in its state -/

/-- A statement that asks for no state: it is no marker, and what would take states stays as it is.
-/
def Quiet (m : Markers) (st : Stmt) : Prop :=
  st.isMarker m = false ∧ (st.opensStates → st.needsLowering m = false)

/-- Whether the phrase takes states only where a statement in it does. -/
def Phrase.isOrdinary : Phrase → Bool
  | stmt _ | stmts _ | branch _ => true
  | scope p => p.isOrdinary
  | _ => false

/-- Where all statements ask for no state, code stays in its state. -/
theorem Made.stays {L L' : Ledger} {cur : List Op} {ph : Phrase} {code : Code}
    (h : Made ctx L cur ph code L') (hph : ph.isOrdinary)
    (hquiet : ∀ path t, Lies ph.parts path t → Quiet ctx.markers t) : code.states = [] := by
  have hinside : ∀ {m s}, (∀ path t, Lies [s] path t → Quiet m t) →
      ∀ path t, Lies s.children path t → Quiet m t := fun hs path t ht =>
    hs _ t ((Lies.top mem_cons_self).within ht)
  have hkept : ∀ {m s}, (∀ path t, Lies [s] path t → Quiet m t) → s.opensStates →
      ¬ s.needsLowering m := fun hs hopens =>
    Bool.eq_false_iff.mp ((hs [] _ (.top mem_cons_self)).2 hopens)
  induction h with
  | plain | declare | cond | synchronized | ret | brk | cont | nil | noBranch => rfl
  | emit he | emitAll he =>
    have hmarker := (hquiet [] _ (.top mem_cons_self)).1
    simp [Stmt.isMarker, he] at hmarker
  | block _ _ ih => exact ih rfl (hinside hquiet)
  | split _ _ _ _ hsplit _ ihYes ihNo =>
    -- one of the branches would have taken a state
    have hyes := ihYes rfl fun path t ht => hinside hquiet path t
      (ht.mono fun _ hmem => mem_singleton.mp hmem ▸ mem_cons_self)
    have hno := ihNo rfl fun path t ht => hinside hquiet path t
      (ht.mono fun _ => mem_cons_of_mem _)
    exact absurd hsplit (by simp [hyes, hno])
  | @loopStmt _ _ _ s _ _ hneeds hloop =>
    have hopens : s.opensStates := by cases s <;> first | rfl | cases hloop
    exact absurd hneeds (hkept hquiet hopens)
  | switch hneeds | labeledLoop hneeds | labeled hneeds | tryCatch hneeds =>
    exact absurd hneeds (hkept hquiet rfl)
  | cons _ _ ihHead ihTail =>
    have hhead := ihHead rfl fun path t ht => hquiet path t
      (ht.mono fun _ hmem => mem_singleton.mp hmem ▸ mem_cons_self)
    have htail := ihTail rfl fun path t ht => hquiet path t (ht.mono fun _ => mem_cons_of_mem _)
    exact eq_nil_of_length_eq_zero (by simp [hhead, htail])
  | scope _ ih => exact eq_nil_of_length_eq_zero (by simp [ih hph hquiet])
  | branch _ ih => exact ih rfl hquiet
  | _ => cases hph

/-- A statement in which no marker is found is none. -/
theorem isMarker_of_ownMarker? {m : Markers} {s : Stmt} (h : s.ownMarker? m = none) :
    s.isMarker m = false := by
  cases s with
  | expr e loc =>
    have hleaves : (Stmt.expr e loc).leaves m {} = false := by
      rw [Stmt.leaves, show e.findMarker? m = none from h]
      rfl
    exact Stmt.isMarker_of_leaves hleaves
  | _ => rfl

/-- Code under a lock stays in its state unless something in it takes states. -/
theorem locked_stays {body : List Stmt} (hmarker : Stmt.firstMarkerIn? ctx.markers body = none)
    (hquiet : ∀ inner t, Lies body inner t → t.opensStates → t.needsLowering ctx.markers = false)
    (cur : List Op) (L : Ledger) (code : Code) (L' : Ledger)
    (hrun : sketchAll body ctx cur L = .ok (code, L')) : code.states = [] := by
  refine (sketchAll_made body ctx hrun).stays rfl fun inner t ht => ?_
  have hnone := Stmt.firstMarker?_of_lies hmarker ht
  rw [Stmt.firstMarker?_eq, Option.or_eq_none_iff, Option.map_eq_none_iff] at hnone
  exact ⟨isMarker_of_ownMarker? hnone.1, hquiet inner t ht⟩

/-! ## The statements around the one at hand -/

/-- The targets of jumps that lowering knows are those among the statements on the path. -/
structure Mirrors (path : List Stmt) (ctx : Context) : Prop where
  /-- a loop or a switch is a target of breaks -/
  breaks : (∃ t ∈ path, t.isLoop ∨ t.isSwitch) → ∃ k ∈ ctx.controls, k.kind = .loop ∨
    k.kind = .switch
  /-- a loop is a target of continues -/
  loops : (∃ t ∈ path, t.isLoop) → ∃ k ∈ ctx.controls, k.kind = .loop
  /-- what is a loop can be gone on with -/
  continues : ∀ k ∈ ctx.controls, k.kind = .loop → k.continueTag.isSome
  /-- a label is a target of breaks -/
  labels : ∀ t ∈ path, ∀ label, t.label? = some label → ∃ k ∈ ctx.controls, k.label = some label
  /-- a label in force is that of a statement -/
  named : ∀ k ∈ ctx.controls, ∀ label, k.label = some label → ∃ t ∈ path, t.label? = some label
  /-- the label of a loop leads to a target that can be gone on with -/
  loopLabels : ∀ t ∈ path, ∀ label, t.loopLabel? = some label →
    ∃ k, ctx.continueControl? (some label) = some k ∧ k.continueTag.isSome

namespace Mirrors

variable {k : Control} {loc : Location}
variable {path : List Stmt} {ctx : Context} {t : Stmt}

/-- At the top of a procedure there is nothing to jump to. -/
theorem nil (h : ctx.controls = []) : Mirrors [] ctx := by
  constructor <;> simp [h]

variable (h : Mirrors path ctx)

include h

/-- A statement that jumps do not name. -/
theorem pass (hloop : t.isLoop = false) (hswitch : t.isSwitch = false)
    (hlabel : t.label? = none) : Mirrors (t :: path) ctx where
  breaks := by
    rintro ⟨u, hu, hjump⟩
    rcases mem_cons.mp hu with rfl | hu
    · simp [hloop, hswitch] at hjump
    · exact h.breaks ⟨u, hu, hjump⟩
  loops := by
    rintro ⟨u, hu, hjump⟩
    rcases mem_cons.mp hu with rfl | hu
    · simp [hloop] at hjump
    · exact h.loops ⟨u, hu, hjump⟩
  continues := h.continues
  labels := by
    intro u hu label hname
    rcases mem_cons.mp hu with rfl | hu
    · simp [hlabel] at hname
    · exact h.labels u hu label hname
  named := fun k hk label hname =>
    let ⟨u, hu, heq⟩ := h.named k hk label hname
    ⟨u, mem_cons_of_mem _ hu, heq⟩
  loopLabels := by
    intro u hu label hname
    rcases mem_cons.mp hu with rfl | hu
    · rw [Stmt.label?_of_loopLabel? hname] at hlabel
      cases hlabel
    · exact h.loopLabels u hu label hname

/-- Statements with which a new target of jumps begins. -/
theorem enter (ts : List Stmt) (hnew : ∀ label, k.label = some label → ∀ c ∈ ctx.controls,
    c.label ≠ some label)
    (hbreaks : (∃ t ∈ ts, t.isLoop ∨ t.isSwitch) → k.kind = .loop ∨ k.kind = .switch)
    (hloops : (∃ t ∈ ts, t.isLoop) → k.kind = .loop)
    (hcontinues : k.kind = .loop → k.continueTag.isSome)
    (hlabels : ∀ t ∈ ts, ∀ label, t.label? = some label → k.label = some label)
    (hnamed : ∀ label, k.label = some label → ∃ t ∈ ts, t.label? = some label)
    (hloopLabels : ∀ t ∈ ts, ∀ label, t.loopLabel? = some label → k.continueTag.isSome) :
    Mirrors (ts ++ path) (ctx.enter k) where
  breaks := by
    rintro ⟨t, ht, hjump⟩
    rcases mem_append.mp ht with ht | ht
    · exact ⟨k, mem_cons_self, hbreaks ⟨t, ht, hjump⟩⟩
    · obtain ⟨c, hc, hkind⟩ := h.breaks ⟨t, ht, hjump⟩
      exact ⟨c, mem_cons_of_mem _ hc, hkind⟩
  loops := by
    rintro ⟨t, ht, hjump⟩
    rcases mem_append.mp ht with ht | ht
    · exact ⟨k, mem_cons_self, hloops ⟨t, ht, hjump⟩⟩
    · obtain ⟨c, hc, hkind⟩ := h.loops ⟨t, ht, hjump⟩
      exact ⟨c, mem_cons_of_mem _ hc, hkind⟩
  continues := forall_mem_cons.mpr ⟨hcontinues, h.continues⟩
  labels := by
    intro t ht label hname
    rcases mem_append.mp ht with ht | ht
    · exact ⟨k, mem_cons_self, hlabels t ht label hname⟩
    · obtain ⟨c, hc, heq⟩ := h.labels t ht label hname
      exact ⟨c, mem_cons_of_mem _ hc, heq⟩
  named := by
    intro c hc label hname
    rcases mem_cons.mp hc with rfl | hc
    · obtain ⟨t, ht, heq⟩ := hnamed label hname
      exact ⟨t, mem_append_left _ ht, heq⟩
    · obtain ⟨t, ht, heq⟩ := h.named c hc label hname
      exact ⟨t, mem_append_right _ ht, heq⟩
  loopLabels := by
    intro t ht label hname
    rcases mem_append.mp ht with ht | ht
    · refine ⟨k, ?_, hloopLabels t ht label hname⟩
      have hk := hlabels t ht label (Stmt.label?_of_loopLabel? hname)
      show (k :: ctx.controls).find? (fun c => c.label == some label) = some k
      rw [find?_cons_of_pos]
      simp [hk]
    · -- the new target has another label than the loops around it
      obtain ⟨c, hc, hcontinue⟩ := h.loopLabels t ht label hname
      refine ⟨c, ?_, hcontinue⟩
      have hlabel : c.label = some label := by simpa using find?_some hc
      have hother : k.label ≠ some label :=
        fun hk => hnew label hk c (mem_of_find?_eq_some hc) hlabel
      exact (find?_cons_of_neg (by simpa using hother)).trans hc

/-- A loop is left by breaks and gone on with by continues. -/
theorem loop (ht : t.isLoop) (hkind : k.kind = .loop) (hlabel : k.label = none)
    (hcontinue : k.continueTag.isSome) : Mirrors (t :: path) (ctx.enter k) := by
  have hname : t.label? = none := by cases t <;> first | rfl | cases ht
  refine h.enter [t] ?_ (fun _ => .inl hkind) (fun _ => hkind) (fun _ => hcontinue) ?_ ?_ ?_
  all_goals simp [hlabel, hname, hcontinue]

/-- The label of a loop names the loop. -/
theorem labeledLoop {label : String} (ht : t.isLoop) (hkind : k.kind = .loop)
    (hlabel : k.label = some label) (hcontinue : k.continueTag.isSome)
    (hnew : ∀ c ∈ ctx.controls, c.label ≠ some label) :
    Mirrors (t :: .labeled label t loc :: path) (ctx.enter k) := by
  have hname : t.label? = none := by cases t <;> first | rfl | cases ht
  refine h.enter [t, .labeled label t loc] ?_ (fun _ => .inl hkind) (fun _ => hkind)
    (fun _ => hcontinue) ?_ ?_ fun _ _ _ _ => hcontinue
  · rintro _ hk
    cases hlabel.symm.trans hk
    exact hnew
  all_goals simp [hlabel, hname]

/-- A labelled statement that is no loop is left by breaks with its label only. -/
theorem labeled {label : String} (ht : t.isLoop = false) (hkind : k.kind = .labeled)
    (hlabel : k.label = some label) (hnew : ∀ c ∈ ctx.controls, c.label ≠ some label) :
    Mirrors (.labeled label t loc :: path) (ctx.enter k) := by
  refine h.enter [.labeled label t loc] ?_ ?_ ?_ ?_ ?_ ?_ ?_
  · rintro _ hk
    cases hlabel.symm.trans hk
    exact hnew
  all_goals simp [hlabel, hkind, ht, Stmt.loopLabel?_labeled]

/-- A switch is left by breaks, and not gone on with. -/
theorem switch (ht : t.isSwitch) (hkind : k.kind = .switch) (hlabel : k.label = none) :
    Mirrors (t :: path) (ctx.enter k) := by
  have hname : t.label? = none ∧ t.loopLabel? = none ∧ t.isLoop = false := by
    cases t <;> first | exact ⟨rfl, rfl, rfl⟩ | cases ht
  refine h.enter [t] ?_ (fun _ => .inr hkind) ?_ ?_ ?_ ?_ ?_
  all_goals simp [hlabel, hkind, hname]

/-- A break finds nothing to leave only where there is none. -/
theorem breakTag?_eq_none {label : Option String} {m : Markers}
    (hnone : ctx.breakTag? label = none) :
    Stmt.Breaks m path (.brk label loc) (.unmatchedBreak label loc) := by
  have hnone : ctx.breakControl? label = none := Option.map_eq_none_iff.mp hnone
  cases label with
  | none =>
    refine .brk fun t ht => ?_
    by_contra hjump
    obtain ⟨k, hk, hkind⟩ := h.breaks ⟨t, ht, by grind⟩
    exact absurd hkind (by simpa using find?_eq_none.mp hnone k hk)
  | some label =>
    refine .labeledBrk fun t ht hlabel => ?_
    obtain ⟨k, hk, hname⟩ := h.labels t ht label hlabel
    exact absurd hname (by simpa using find?_eq_none.mp hnone k hk)

/-- A continue finds no loop only where there is none. -/
theorem continueTag?_eq_none {label : Option String} {m : Markers}
    (hnone : ctx.continueTag? label = none) :
    Stmt.Breaks m path (.cont label loc) (.unmatchedContinue label loc) := by
  cases label with
  | none =>
    refine .cont fun t ht => ?_
    by_contra hloop
    obtain ⟨k, hk, hkind⟩ := h.loops ⟨t, ht, by simpa using hloop⟩
    have hfound : (ctx.continueControl? none).isSome := find?_isSome.mpr ⟨k, hk, by simp [hkind]⟩
    -- the innermost loop may be another one
    obtain ⟨k', hk'⟩ := Option.isSome_iff_exists.mp hfound
    have hcontinue := h.continues k' (mem_of_find?_eq_some hk') (by simpa using find?_some hk')
    rw [Context.continueTag?, hk', Option.bind_some] at hnone
    rw [hnone] at hcontinue
    cases hcontinue
  | some label =>
    refine .labeledCont fun t ht hlabel => ?_
    obtain ⟨k, hk, hcontinue⟩ := h.loopLabels t ht label hlabel
    rw [Context.continueTag?, hk, Option.bind_some] at hnone
    rw [hnone] at hcontinue
    cases hcontinue

end Mirrors

/-! ## Statements -/

/-- In a scoped statement, what declares a variable has it. -/
theorem Fresh.isSome {x : Ident} (h : x.Fresh vis) : x.symbol.isSome := by
  obtain ⟨id, hx, -⟩ := h
  rw [hx]
  rfl

/-- The resources of a scoped statement have variables. -/
theorem ScopedAll.isSome {ds : List LocalDecl} (h : LocalDecl.ScopedAll vis ds) :
    ∀ d ∈ ds, d.name.symbol.isSome := by
  induction ds generalizing vis with
  | nil => exact nofun
  | cons d ds ih => exact forall_mem_cons.mpr ⟨Fresh.isSome h.1.2, ih h.2⟩

theorem ScopedCatches.isSome {cs : List CatchClause} (h : Stmt.ScopedCatches vis cs) :
    ∀ c ∈ cs, c.param.symbol.isSome := by
  induction cs with
  | nil => exact nofun
  | cons c cs ih =>
    obtain ⟨param, types, body⟩ := c
    exact forall_mem_cons.mpr ⟨Fresh.isSome h.1, ih h.2.2⟩

/-- Every statement and the statements inside it have heads that fit. -/
def HeadsFit (root : List Stmt) : Prop := ∀ path s, Lies root path s → s.HeadFits

section Statements

variable {E : LoweringError → Prop} {root path : List Stmt} {ctx : Context} {st : Stmt}

/-- An error is one of `E` if it is no defect and, where heads fit, about a rule that the statement
breaks. -/
def Charges (E : LoweringError → Prop) (root : List Stmt) (m : Markers) (path : List Stmt)
    (st : Stmt) : Prop :=
  ∀ e, e.isDefect = false → (HeadsFit root → st.Breaks m path e) → E e

/-- A marker where none may stand is an error that may be given. -/
theorem Charges.marker (h : Charges E root ctx.markers path st) :
    ∀ a ∈ st.ordinary ctx.markers, Blames E ctx st.location a :=
  fun _ ha _ hname => h _ rfl fun _ => .marker ha hname

/-- Statements that a counting loop may start with. -/
theorem simple_fails (hsimple : st.isSimple) (hsees : st.Sees fun _ => True)
    (h : Charges E root ctx.markers path st) : Fails E ctx (st.sketch ctx) := by
  have hmarker := h.marker
  cases st with
  | expr e =>
    refine expr_fails (fun hnone => hmarker e ?_) fun kind arg hsome => hmarker arg ?_
    · simp [Stmt.ordinary, Stmt.marker?, hnone, Stmt.exprs]
    · simp [Stmt.ordinary, Stmt.marker?, hsome]
  | declare =>
    obtain ⟨vis, hscoped, -⟩ := hsees
    exact declare_fails (Fresh.isSome hscoped.2) fun e he => hmarker e (Option.mem_toList.mpr he)
  | _ => cases hsimple

/-- Loops, with the labels they may carry. -/
theorem rounds_fails {label : Option String} (hloop : st.isLoop) (hsees : st.Sees fun _ => True)
    (h : Charges E root ctx.markers path st)
    (hinit : ∀ init test update body loc, st = .forLoop init test update body loc →
      ∀ t ∈ init, Fails E ctx (t.sketch ctx))
    (hround : ∀ t ∈ st.children, ∀ k : Control, k.kind = .loop → k.label = label →
      k.continueTag.isSome →
      Fails E (ctx.enter k) (t.sketch (ctx.enter k))) : Fails E ctx (st.rounds label ctx) := by
  have hmarker := h.marker
  obtain ⟨vis, hscoped, -⟩ := hsees
  cases st with
  | whileLoop test body | doWhile body test =>
    exact testLoop_fails (hround body mem_cons_self) (hmarker test mem_cons_self)
  | forLoop init test update body =>
    exact forLoop_fails (hround body (mem_append_right _ (mem_singleton_self body)))
      (hinit _ _ _ _ _ rfl)
      (fun e he => hmarker e (mem_append_left _ (Option.mem_toList.mpr he)))
      fun e he => hmarker e (mem_append_right _ he)
  | forEach var iterable body =>
    exact forEach_fails (hround body mem_cons_self) (Fresh.isSome hscoped.2.1.2)
      (hmarker iterable mem_cons_self)
  | _ => cases hloop

variable {m : Markers} (hsees : ∀ path s, Lies root path s → s.Sees fun _ => True)
  (hE : ∀ path s, Lies root path s → Charges E root m path s)

include hsees hE

/-- **Lowering a statement fails with errors about rules that are broken in it.** -/
theorem sketch_fails (st : Stmt) : ∀ path ctx, ctx.markers = m →
    (HeadsFit root → Mirrors path ctx) → Lies root path st → Fails E ctx (st.sketch ctx) := by
  induction st using Stmt.induct with
  | step st ih =>
    rintro path ctx rfl hmirrors hlies
    have hcharge := hE path st hlies
    have hmarker := hcharge.marker
    have hscoped := hsees path st hlies
    -- a statement directly inside, with what stands around it
    have hchild : ∀ t ∈ st.children, ∀ inside : Context, inside.markers = ctx.markers →
        (HeadsFit root → Mirrors (st :: path) inside) → Fails E inside (t.sketch inside) :=
      fun t ht inside hm hin => ih [] t (.top ht) (st :: path) inside hm hin (.inner hlies ht)
    -- the initialisers of a loop stand in front of it, and where heads fit they contain no jumps
    have hstart : ∀ init test update body loc around,
        Lies root around (.forLoop init test update body loc) →
        (∀ t ∈ init, (HeadsFit root → Mirrors (.forLoop init test update body loc :: around) ctx) →
          Fails E ctx (t.sketch ctx)) → ∀ t ∈ init, Fails E ctx (t.sketch ctx) := by
      intro init test update body loc around hloop hrest t ht
      by_cases hsimple : t.isSimple
      · have hin : Lies root _ t := .inner hloop (mem_append_left _ ht)
        exact simple_fails hsimple (hsees _ t hin) (hE _ t hin)
      · exact hrest t ht fun hfit => absurd (hfit _ _ hloop t ht) hsimple
    by_cases hloop : st.isLoop
    · rw [Stmt.sketch_loop hloop]
      refine unlessPlain_fails fun _ =>
        rounds_fails hloop hscoped hcharge ?_ fun t ht k hk hlabel hcont =>
        hchild t ht (ctx.enter k) rfl fun hfit => (hmirrors hfit).loop hloop hk hlabel hcont
      rintro init test update body loc rfl
      exact hstart _ _ _ _ _ path hlies fun t ht => hchild t (mem_append_left _ ht) ctx rfl
    have hpass : st.isSwitch = false → st.label? = none → HeadsFit root →
        Mirrors (st :: path) ctx :=
      fun hswitch hlabel hfit => (hmirrors hfit).pass (by simpa using hloop) hswitch hlabel
    obtain ⟨vis, hscoped, -⟩ := hscoped
    cases st with
    | empty => exact unlessPlain_fails fun h => by cases h
    | expr | declare => exact simple_fails rfl (hsees path _ hlies) hcharge
    | block =>
      exact unlessPlain_fails fun _ => scope_fails <| sketchAll_fails fun t ht =>
        hchild t ht ctx rfl (hpass rfl rfl)
    | cond test yes =>
      exact unlessPlain_fails fun _ => cond_fails (hmarker test mem_cons_self)
        (hchild yes mem_cons_self ctx rfl (hpass rfl rfl)) fun s hs =>
        hchild s (mem_cons_of_mem _ (Option.mem_toList.mpr hs)) ctx rfl (hpass rfl rfl)
    | switch selector =>
      exact unlessPlain_fails fun _ => switch_fails (hmarker selector mem_cons_self)
        (fun e he => hmarker e (mem_cons_of_mem _ he)) fun k hk hlabel c hc =>
        sketchAll_fails fun t ht => hchild t (mem_flatMap.mpr ⟨c, hc, ht⟩) (ctx.enter k) rfl
          fun hfit => (hmirrors hfit).switch rfl hk hlabel
    | tryCatch =>
      refine unlessPlain_fails fun _ => tryCatch_fails (ScopedAll.isSome hscoped.1) ?_
        (sketchAll_fails fun t ht => ?_)
        (ScopedCatches.isSome hscoped.2.2.1) (fun c hc => sketchAll_fails fun t ht => ?_)
        fun ss hss => sketchAll_fails fun t ht => ?_
      · exact fun d hd e he => hmarker e (mem_flatMap.mpr ⟨d, hd, Option.mem_toList.mpr he⟩)
      · exact hchild t (mem_append_left _ (mem_append_left _ ht)) ctx rfl (hpass rfl rfl)
      · exact hchild t (mem_append_left _ (mem_append_right _ (mem_flatMap.mpr ⟨c, hc, ht⟩))) ctx
          rfl
          (hpass rfl rfl)
      · cases hss
        exact hchild t (mem_append_right _ ht) ctx rfl (hpass rfl rfl)
    | labeled label body loc =>
      have hduplicate : (∃ k ∈ ctx.controls, k.label = some label) →
          E (.duplicateLabel label loc) := by
        rintro ⟨k, hk, hname⟩
        refine hcharge _ rfl fun hfit => ?_
        obtain ⟨t, ht, hlabel⟩ := (hmirrors hfit).named k hk label hname
        exact .label ht hlabel
      by_cases hloop : body.isLoop
      · -- the label and the loop are one target of jumps
        have hbody : Lies root (.labeled label body loc :: path) body := .inner hlies mem_cons_self
        have hinside : ∀ t ∈ body.children, ∀ inside : Context, inside.markers = ctx.markers →
            (HeadsFit root → Mirrors (body :: .labeled label body loc :: path) inside) →
            Fails E inside (t.sketch inside) := fun t ht inside hm hin =>
          ih [body] t ((Lies.top mem_cons_self).within (.top ht)) _ inside hm hin (.inner hbody ht)
        rw [Stmt.sketch_labeledLoop hloop]
        refine unlessPlain_fails fun _ => checked_fails hduplicate fun hnew =>
          rounds_fails hloop (hsees _ _ hbody) (hE _ _ hbody) ?_ fun t ht k hk hlabel hcont =>
            hinside t ht (ctx.enter k) rfl fun hfit =>
              (hmirrors hfit).labeledLoop hloop hk hlabel hcont hnew
        rintro init test update b place rfl
        exact hstart _ _ _ _ _ _ hbody fun t ht => hinside t (mem_append_left _ ht) ctx rfl
      · rw [Bool.not_eq_true] at hloop
        rw [Stmt.sketch_labeled hloop]
        exact unlessPlain_fails fun _ => checked_fails hduplicate fun hnew =>
          labeled_fails fun k hk hlabel =>
          hchild body mem_cons_self (ctx.enter k) rfl fun hfit =>
            (hmirrors hfit).labeled hloop hk hlabel hnew
    | synchronized lock body loc =>
      have hinside : ∀ inner t, Lies body inner t →
          Charges E root ctx.markers (inner ++ .synchronized lock body loc :: path) t :=
        fun inner t ht => hE _ t (hlies.within ht)
      refine unlessPlain_fails fun _ => synchronized_fails (hmarker lock mem_cons_self) ?_ ?_
        (sketchAll_fails fun t ht => hchild t ht ctx rfl (hpass rfl rfl))
      · intro name place hfound
        obtain ⟨inner, t, ht, hown, rfl⟩ := Stmt.lies_of_firstMarkerIn? hfound
        obtain ⟨e, he, hname⟩ := Stmt.exprs_of_ownMarker? hown
        exact hinside inner t ht _ rfl fun _ =>
          .lockedMarker (mem_append_right _ mem_cons_self) rfl he hname
      · intro hnone
        by_cases hsplit : ∃ inner t, Lies body inner t ∧ t.opensStates ∧ t.needsLowering ctx.markers
        · obtain ⟨inner, t, ht, hopens, hneeds⟩ := hsplit
          exact .inl (hinside inner t ht _ rfl fun _ =>
            .lockedStates (mem_append_right _ mem_cons_self) rfl hopens hneeds)
        · refine .inr (locked_stays hnone fun inner t ht hopens => ?_)
          by_contra hneeds
          exact hsplit ⟨inner, t, ht, hopens, by simpa using hneeds⟩
    | ret value =>
      cases value with
      | none => exact route_fails mem_cons_self
      | some => exact fun _ _ _ => throws_error (hcharge _ rfl fun _ => .ret)
    | brk =>
      exact brk_fails fun hnone => hcharge _ rfl fun hfit => (hmirrors hfit).breakTag?_eq_none hnone
    | cont =>
      exact cont_fails fun hnone => hcharge _ rfl fun hfit =>
        (hmirrors hfit).continueTag?_eq_none hnone
    | raise e =>
      exact unlessPlain_fails fun hneeds => misplaced_fails (hmarker e mem_cons_self) hneeds
    | _ => exact absurd rfl hloop

end Statements

/-! ## Procedures -/

/-- Parameters become fields. -/
theorem Ledger.contains_captureParams (L : Ledger) (params : List (SymbolId × TypeRef)) :
    ∀ x ∈ params, (L.captureParams params).captures.contains x.1 := by
  induction params generalizing L with
  | nil => exact nofun
  | cons y params ih =>
    refine forall_mem_cons.mpr ⟨?_, ih _⟩
    refine (Ledger.captureParams_grows _ params).captures y.1 ?_
    rw [capture, CaptureSet.contains_insert, beq_self_eq_true, Bool.true_or]

/-- The tags of a ledger that is made from scratch all have states. -/
theorem Made.settled {L L' : Ledger} {cur : List Op} {p : Phrase} {code : Code}
    (h : Made ctx L cur p code L') (htags : L.tags = .initial) (tag : Tag) : ¬ L'.tags.Open tag :=
  fun hopen =>
  TagTable.settled_initial tag (htags ▸ ((h.open_iff tag).mp hopen).1)

theorem Ledger.tags_captureParams (L : Ledger) (params : List (SymbolId × TypeRef)) :
    (L.captureParams params).tags = L.tags := by
  obtain ⟨captures, h⟩ := L.captureParams_eq params
  rw [h]

/-- A procedure starts with nothing but its end to jump to. -/
theorem Ready.root {L : Ledger} (hcontrols : ctx.controls = []) (htags : L.tags = .initial)
    (hmachine : L.machine = .root) : Ready ctx L := by
  have htargets : ∀ t ∈ ctx.targets, t = .finished := by
    intro t ht
    rw [Context.targets, Context.tags, hcontrols] at ht
    exact mem_singleton.mp ht
  constructor
  · intro t ht
    rw [htargets t ht, htags]
    exact Nat.one_pos
  · intro _ t ht
    rw [htargets t ht, htags, hmachine]
    rfl

/-- A procedure whose parameters have variables fails for its statements only. -/
theorem procedure_throws {E : LoweringError → Prop} {q : Procedure} (symbols : SymbolTable)
    (hcontrols : ctx.controls = []) (hparams : ∀ x ∈ q.params, x.name.symbol.isSome)
    (hbody : Fails E ctx (sketchAll q.body ctx)) : Throws E (Sketch.procedure ctx q symbols) := by
  refine (symbolsOf_throws fun x hx => ?_).bind fun xs _ => scope_fails hbody ?_
  · obtain ⟨param, hparam, rfl⟩ := mem_map.mp hx
    exact hparams param hparam
  · exact .root hcontrols (Ledger.tags_captureParams ..) (Ledger.captureParams_grows ..).machine

/-- Behind a procedure, every tag has a state and every parameter a field. -/
theorem procedure_settles {q : Procedure} {symbols : SymbolTable} {code : Code} {L : Ledger}
    (h : Sketch.procedure ctx q symbols = .ok (code, L)) :
    L.tags.verify = .ok () ∧ ∀ x ∈ q.params, x.name.symbol.any L.captures.contains := by
  obtain ⟨xs, hxs, hmade⟩ := procedure_made h
  refine ⟨TagTable.verify_of_settled (hmade.settled (Ledger.tags_captureParams ..)), fun x hx => ?_⟩
  -- the variable of a parameter is among those that became fields first
  obtain ⟨i, hi, rfl⟩ := getElem_of_mem hx
  have hlength : q.params.length = xs.length := by simpa using congrArg List.length hxs
  have hsymbol : q.params[i].name.symbol = some (xs[i]) := by
    have hget := congrArg (fun l => l[i]?) hxs
    simpa [hi, hlength ▸ hi] using hget
  have hfield : (xs[i], q.params[i].type) ∈ xs.zip (q.params.map Param.type) := by
    have hlt : i < (xs.zip (q.params.map Param.type)).length := by
      rw [length_zip, length_map, ← hlength, Nat.min_self]
      exact hi
    have hget : (xs.zip (q.params.map Param.type))[i] = (xs[i], q.params[i].type) := by
      rw [getElem_zip, getElem_map]
    exact hget ▸ getElem_mem hlt
  rw [hsymbol]
  exact hmade.grows.captures _ (Ledger.contains_captureParams _ _ _ hfield)

end Lowering

open Lowering

namespace Procedure

/-- Resolving gives every parameter a variable. -/
theorem resolve_params (p : Procedure) : ∀ x ∈ p.resolve.1.params, x.name.symbol.isSome := by
  have hall : ∀ (ps : List Param) (s : Scope), ∀ x ∈ (ps.mapM Param.resolve s).1,
      x.name.symbol.isSome := by
    intro ps
    induction ps with
    | nil => exact fun s x hx => absurd hx not_mem_nil
    | cons y ps ih =>
      intro s
      rw [mapM_cons]
      exact forall_mem_cons.mpr ⟨rfl, ih _⟩
  exact hall p.params _

/-- The check of parameters passes where all of them have fields. -/
theorem checkFields_ok {params : List Param} {captures : CaptureSet}
    (h : ∀ x ∈ params, x.name.symbol.any captures.contains) :
    params.forM (checkField captures) = .ok () := by
  induction params with
  | nil => rfl
  | cons x params ih =>
    obtain ⟨hx, hrest⟩ := forall_mem_cons.mp h
    have hcheck : checkField captures x = .ok () := by rw [checkField, if_pos hx]
    show (checkField captures x >>= fun _ => params.forM (checkField captures)) = _
    rw [hcheck]
    exact ih hrest

/-- A class is made where every tag has a state and every parameter a field. -/
theorem assemble_ok (q : Procedure) (body : LoweredBody) (elementType : TypeRef)
    (settings : Settings) (hverify : body.tags.verify = .ok ())
    (hfields : ∀ x ∈ q.params, x.name.symbol.any body.captures.contains) :
    q.assemble elementType body settings = .ok
      ⟨q.name ++ settings.classSuffix, q.name, elementType, q.params,
      body.captures, body.machine, body.tags, body.symbols⟩ := by
  rw [assemble, hverify, checkFields_ok hfields]
  rfl

theorem Grammatical.resolve {p : Procedure} (h : p.Grammatical) :
    ∀ path s, Lies p.resolve.1.body path s → s.HeadFits := by
  intro path s hs
  obtain ⟨path', s', hs', -, heq⟩ := hs.of_resolve
  rw [← Stmt.headFits_unresolved, heq, Stmt.headFits_unresolved]
  exact h path' s' hs'

/-- **Every error is about a rule that the procedure breaks**, at a place of the procedure, and none
is a defect of lowering: the checks behind it have nothing to refuse. -/
theorem lower_breaks (p : Procedure) (settings : Settings) :
    Throws (fun e => e.isDefect = false ∧ (p.Grammatical →
      ∃ path s, Lies p.body path s ∧ s.Breaks settings.markers path e)) (p.lower settings) := by
  obtain ⟨-, hscoped⟩ := p.resolve_scoped
  have hsees : ∀ path s, Lies p.resolve.1.body path s → s.Sees fun _ => True := by
    intro path s hs
    induction hs with
    | top hs => exact Stmt.SeesAll.sees ⟨_, hscoped, fun _ _ => trivial⟩ (fun _ _ => trivial) _ hs
    | inner _ ht ih => exact ih.child (fun _ _ => trivial) _ ht
  rw [lower_eq]
  refine (procedure_throws _ rfl p.resolve_params (sketchAll_fails fun st hst => ?_)).bind
    fun r hr => ?_
  · refine sketch_fails hsees (fun path s hs e hdefect hbreaks => ⟨hdefect, fun hp => ?_⟩) st
      [] _ rfl
      (fun _ => .nil rfl) (.top hst)
    obtain ⟨path', s', hs', hpath, heq⟩ := hs.of_resolve
    exact ⟨path', s', hs', .of_unresolved (hpath ▸ heq ▸ (hbreaks hp.resolve).unresolved)⟩
  · obtain ⟨hverify, hfields⟩ := procedure_settles hr
    rw [assemble_ok _ _ _ _ hverify hfields]
    exact throws_ok _

/-- **Lowering has no defects of its own**: where it succeeds, every tag stands for a state, and
where it fails, the procedure is to blame. -/
theorem lower_without_defects (p : Procedure) (settings : Settings) :
    match p.lower settings with
    | .ok cls => cls.tags.verify = .ok ()
    | .error e => e.isDefect = false := by
  cases hlower : p.lower settings with
  | ok cls =>
    obtain ⟨blueprint⟩ := lower_blueprint hlower
    show cls.tags.verify = .ok ()
    rw [blueprint.class_eq]
    exact blueprint.verified
  | error e => exact (p.lower_breaks settings e hlower).1

/-- The rules that a procedure has to obey, where markers have these names. -/
structure Lawful (m : Markers) (p : Procedure) : Prop where
  /-- a marker is a statement of its own, and its argument holds no other -/
  markers : ∀ path s, Lies p.body path s → ∀ e ∈ s.ordinary m, e.findMarker? m = none
  /-- no return has a value -/
  returns : ∀ path value loc, Lies p.body path (.ret value loc) → value = none
  /-- a break stands in a loop or a switch -/
  breaks : ∀ path loc, Lies p.body path (.brk none loc) → ∃ t ∈ path, t.isLoop ∨ t.isSwitch
  /-- a continue stands in a loop -/
  continues : ∀ path loc, Lies p.body path (.cont none loc) → ∃ t ∈ path, t.isLoop
  /-- a break with a label stands in a statement that carries it -/
  labeledBreaks : ∀ path label loc, Lies p.body path (.brk (some label) loc) →
    ∃ t ∈ path, t.label? = some label
  /-- a continue with a label stands in a loop that carries it -/
  labeledContinues : ∀ path label loc, Lies p.body path (.cont (some label) loc) →
    ∃ t ∈ path, t.loopLabel? = some label
  /-- no label stands inside a statement with the same label -/
  labels : ∀ path label s loc, Lies p.body path (.labeled label s loc) →
    ∀ t ∈ path, t.label? ≠ some label
  /-- no marker stands under a lock -/
  lockedMarkers : ∀ path s, Lies p.body path s → (∃ t ∈ path, t.isLock) →
    ∀ e ∈ s.exprs, e.findMarker? m = none
  /-- no loop, switch, labelled statement or try that has to be lowered stands under a lock -/
  lockedStates : ∀ path s, Lies p.body path s → (∃ t ∈ path, t.isLock) → s.opensStates →
    s.needsLowering m = false

/-- A procedure that obeys the rules breaks none. -/
theorem Lawful.not_breaks {m : Markers} {p : Procedure} (h : p.Lawful m)
    {path : List Stmt} {s : Stmt} {e : LoweringError} (hs : Lies p.body path s) :
    ¬ s.Breaks m path e := by
  rintro (⟨he, hmarker⟩ | _ | hnone | hnone | hnone | hnone | ⟨ht, hlabel⟩ | ⟨ht, hlock,
    he, hmarker⟩ |
    ⟨ht, hlock, hopens, hneeds⟩)
  · exact Option.some_ne_none _ (hmarker.symm.trans (h.markers path s hs _ he))
  · cases h.returns path _ _ hs
  · obtain ⟨t, ht, hjump⟩ := h.breaks path _ hs
    simp [hnone t ht] at hjump
  · obtain ⟨t, ht, hloop⟩ := h.continues path _ hs
    simp [hnone t ht] at hloop
  · obtain ⟨t, ht, hlabel⟩ := h.labeledBreaks path _ _ hs
    exact hnone t ht hlabel
  · obtain ⟨t, ht, hlabel⟩ := h.labeledContinues path _ _ hs
    exact hnone t ht hlabel
  · exact h.labels path _ _ _ hs _ ht hlabel
  · exact Option.some_ne_none _ (hmarker.symm.trans (h.lockedMarkers path s hs ⟨_, ht, hlock⟩ _ he))
  · rw [h.lockedStates path s hs ⟨_, ht, hlock⟩ hopens] at hneeds
    cases hneeds

end Procedure

/-! ### The rules can be checked -/

namespace Stmt

/-- Whether a jump, a return or a label obeys its rule. -/
def jumpFits (path : List Stmt) : Stmt → Bool
  | ret value _ => value.isNone
  | brk none _ => path.any fun t => t.isLoop || t.isSwitch
  | cont none _ => path.any isLoop
  | brk (some label) _ => path.any fun t => t.label? == some label
  | cont (some label) _ => path.any fun t => t.loopLabel? == some label
  | labeled label _ _ => path.all fun t => t.label? != some label
  | _ => true

/-- Whether a statement, with the statements around it, obeys all rules. -/
def obeys (m : Markers) (path : List Stmt) (s : Stmt) : Bool :=
  (s.ordinary m).all (fun e => (e.findMarker? m).isNone) && s.jumpFits path && (!path.any isLock ||
      s.exprs.all (fun e => (e.findMarker? m).isNone) && (!s.opensStates || !s.needsLowering m))

/-- What is computed of a statement is what the rules ask of it. -/
theorem obeys_iff {m : Markers} {path : List Stmt} {s : Stmt} : s.obeys m path ↔
    (∀ e ∈ s.ordinary m, e.findMarker? m = none) ∧ s.jumpFits path ∧
      ((∃ t ∈ path, t.isLock) → (∀ e ∈ s.exprs, e.findMarker? m = none) ∧
        (s.opensStates → s.needsLowering m = false)) := by
  have hlocks : (!path.any isLock) = true ↔ ¬ ∃ t ∈ path, t.isLock := by simp
  have hstates : (!s.opensStates || !s.needsLowering m) = true ↔
      (s.opensStates → s.needsLowering m = false) := by
    cases s.opensStates <;> cases s.needsLowering m <;> decide
  rw [obeys, Bool.and_eq_true, Bool.and_eq_true, Bool.or_eq_true, Bool.and_eq_true, hlocks,
    hstates, and_assoc]
  simp only [all_eq_true, Option.isNone_iff_eq_none, imp_iff_not_or]

end Stmt

namespace Procedure

/-- The rules hold if every statement at every place obeys them. -/
theorem lawful_iff {m : Markers} {p : Procedure} :
    p.Lawful m ↔ ∀ r ∈ Stmt.places p.body, r.2.obeys m r.1 = true := by
  rw [← forall_lies_iff (P := fun path s => s.obeys m path = true)]
  simp only [Stmt.obeys_iff]
  constructor
  · intro h path s hs
    refine ⟨h.markers path s hs, ?_, fun hlock => ⟨h.lockedMarkers path s hs hlock,
      h.lockedStates path s hs hlock⟩⟩
    cases s with
    | ret value loc => exact Option.isNone_iff_eq_none.mpr (h.returns path value loc hs)
    | brk label loc =>
      cases label with
      | none => simpa [Stmt.jumpFits] using h.breaks path loc hs
      | some label => simpa [Stmt.jumpFits] using h.labeledBreaks path label loc hs
    | cont label loc =>
      cases label with
      | none => simpa [Stmt.jumpFits] using h.continues path loc hs
      | some label => simpa [Stmt.jumpFits] using h.labeledContinues path label loc hs
    | labeled label body loc => simpa [Stmt.jumpFits] using h.labels path label body loc hs
    | _ => rfl
  · intro h
    constructor
    · exact fun path s hs => (h path s hs).1
    · exact fun path value loc hs => Option.isNone_iff_eq_none.mp (h path _ hs).2.1
    · exact fun path loc hs => by simpa [Stmt.jumpFits] using (h path _ hs).2.1
    · exact fun path loc hs => by simpa [Stmt.jumpFits] using (h path _ hs).2.1
    · exact fun path label loc hs => by simpa [Stmt.jumpFits] using (h path _ hs).2.1
    · exact fun path label loc hs => by simpa [Stmt.jumpFits] using (h path _ hs).2.1
    · exact fun path label body loc hs => by simpa [Stmt.jumpFits] using (h path _ hs).2.1
    · exact fun path s hs hlock => ((h path s hs).2.2 hlock).1
    · exact fun path s hs hlock => ((h path s hs).2.2 hlock).2

instance (m : Markers) (p : Procedure) : Decidable (p.Lawful m) :=
  decidable_of_iff _ lawful_iff.symm

/-- An error would be about a rule that is broken. -/
theorem accepts_lawful {p : Procedure} {settings : Settings} (hp : p.Grammatical)
    (h : p.Lawful settings.markers) : ∃ cls, p.lower settings = .ok cls := by
  cases hlower : p.lower settings with
  | ok cls => exact ⟨cls, rfl⟩
  | error e =>
    obtain ⟨path, s, hs, hbreaks⟩ := (p.lower_breaks settings e hlower).2 hp
    exact absurd hbreaks (h.not_breaks hs)

/-- **A procedure that obeys the rules is accepted**: every grammatical one, and so every one that
is read from a source. -/
theorem lower_of_lawful (settings : Settings) :
    (∀ p : Procedure, p.Grammatical → p.Lawful settings.markers → ∃ cls,
      p.lower settings = .ok cls) ∧
      ∀ source file u, ProgramUnit.ofSource source file = .ok u → ∀ p ∈ u.procedures,
        p.Lawful settings.markers → ∃ cls, p.lower settings = .ok cls :=
  ⟨fun _ hp h => accepts_lawful hp h, fun _ _ _ hu p hp h =>
    accepts_lawful (ProgramUnit.ofSource_grammatical hu p hp) h⟩

/-- A procedure with jumps of every kind, out of a switch, a try, its final code and from under a
lock. -/
def jumpy : Procedure where
  name := "jumpy"
  params := []
  returnType := none
  body := [ .labeled "outer" (.forLoop [.declare ⟨.free "i", .int, some (.int 0)⟩ .unknown]
      (some (.binary .lt (.ident (.free "i")) (.int 3))) [.increment (.free "i") 1 true]
      (.block [ .tryCatch [] [ .switch (.ident (.free "i"))
        [ .mk [.int 1] false [.cont (some "outer") .unknown],
            .mk [] true [.expr (.call "step" [.ident (.free "i")]) .unknown,
              .brk none .unknown]] .unknown]
          [] (some [ .synchronized (.int 1)
            [.cond (.bool true) (.cont none .unknown) none .unknown] .unknown,
            .whileLoop (.bool true) (.brk (some "outer") .unknown) .unknown]) .unknown] .unknown)
              .unknown) .unknown,
    .ret none .unknown]
  location := .unknown

theorem lower_of_lawful_jumpy :
    jumpy.Grammatical ∧ jumpy.Lawful ({} : Settings).markers ∧ ∃ cls, jumpy.lower {} = .ok cls := by
  have hgrammatical : jumpy.Grammatical := by decide
  have hlawful : jumpy.Lawful ({} : Settings).markers := by decide
  exact ⟨hgrammatical, hlawful, (lower_of_lawful {}).1 jumpy hgrammatical hlawful⟩

end Procedure

end Resumable
