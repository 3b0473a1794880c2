import Resumable.Proofs.Settled

/-!
# What constructs fail with

A construct fails because of a part of it, because of a check of its own, or by a defect of
lowering. The last does not happen where the targets of jumps are known and declarations have
variables.

* `Throws` says that a computation fails with errors of a kind only;
* `Ready` is what a statement may rely on: jumps name known tags, and the root machine goes to tags
  of its own only;
* `Fails` is about a sketch wherever it is ready; each construct has a lemma that takes its parts'
  lemmas to its own.
-/

namespace Resumable

open List

namespace Lowering

open Ledger

/-! ## Computations -/

/-- Where the computation fails, the error is one of `E`. -/
def Throws {α : Type} (E : LoweringError → Prop) (x : Except LoweringError α) : Prop :=
  ∀ e, x = .error e → E e

section Computations

variable {α β : Type} {E : LoweringError → Prop} {x : Except LoweringError α}
  {f : α → Except LoweringError β}
  {ctx : Context} {loc : Location}

theorem throws_ok (a : α) : Throws E (.ok a) := fun _ h => nomatch h

theorem throws_error {e : LoweringError} (h : E e) :
    Throws E (.error e : Except LoweringError α) := by
  rintro _ ⟨⟩
  exact h

theorem Throws.bind (hx : Throws E x) (hf : ∀ a, x = .ok a → Throws E (f a)) :
    Throws E (x >>= f) := by
  cases x with
  | error e => exact throws_error (hx e rfl)
  | ok a => exact hf a rfl

/-- A marker in the expression is to blame for an error at that place. -/
def Blames (E : LoweringError → Prop) (ctx : Context) (loc : Location) (e : Expr) : Prop :=
  ∀ name, e.findMarker? ctx.markers = some name → E (.misplacedMarker name loc)

theorem check_throws {e : Expr} (h : Blames E ctx loc e) : Throws E (Sketch.check ctx loc e) := by
  unfold Sketch.check
  split
  · next name hname => exact throws_error (h name hname)
  · exact throws_ok ()

theorem checkAll_throws {es : List Expr} (h : ∀ e ∈ es, Blames E ctx loc e) :
    Throws E (Sketch.checkAll ctx loc es) := by
  induction es with
  | nil => exact throws_ok ()
  | cons e es ih =>
    obtain ⟨he, hes⟩ := forall_mem_cons.mp h
    exact (check_throws he).bind fun _ _ => ih hes

theorem need_throws {found : Option α} {e : LoweringError} (h : found = none → E e) :
    Throws E (Sketch.need found e) := by
  cases found with
  | none => exact throws_error (h rfl)
  | some a => exact throws_ok a

theorem symbolOf_throws {y : Ident} (h : y.symbol.isSome) : Throws E (Sketch.symbolOf y) :=
  need_throws fun hnone => by
    rw [hnone] at h
    cases h

theorem symbolsOf_throws {ys : List Ident} (h : ∀ y ∈ ys, y.symbol.isSome) :
    Throws E (Sketch.symbolsOf ys) := by
  induction ys with
  | nil => exact throws_ok []
  | cons y ys ih =>
    obtain ⟨hy, hys⟩ := forall_mem_cons.mp h
    exact (symbolOf_throws hy).bind fun _ _ => (ih hys).bind fun _ _ => throws_ok _

end Computations

/-! ## Tags -/

section Tags

variable {E : LoweringError → Prop} {ctx : Context} {L L' : Ledger} {tag : Tag}

/-- A tag that was just made can be given a state. -/
theorem Ledger.open_new (L : Ledger) {n i : Nat} (hi : i < n) : (L.reserve n).Open (L.tagAt i) :=
  (L.open_reserve n _).mpr (.inr ⟨i, hi, rfl⟩)

theorem Ledger.tagAt_ne (L : Ledger) {i j : Nat} (h : i ≠ j) : L.tagAt i ≠ L.tagAt j := fun heq =>
  h (Nat.add_left_cancel (congrArg Tag.index heq))

theorem enter_throws (h : L.Open tag) : Throws E (L.enter tag) := by
  obtain ⟨tags, htags⟩ := TagTable.Open.resolve h ⟨L.size + 1⟩
  unfold Ledger.enter
  rw [htags]
  exact throws_ok _

theorem enterAll_throws {tags : List Tag} (h : ∀ t ∈ tags, L.Open t) (hnodup : tags.Nodup) :
    Throws E (L.enterAll tags) := by
  induction tags generalizing L with
  | nil => exact throws_ok L
  | cons tag tags ih =>
    obtain ⟨hnew, hnodup⟩ := nodup_cons.mp hnodup
    obtain ⟨htag, htags⟩ := forall_mem_cons.mp h
    refine (enter_throws htag).bind fun L₁ hL₁ => ih (fun t ht => ?_) hnodup
    exact (open_enter hL₁ t).mpr ⟨htags t ht, fun heq => hnew (heq ▸ ht)⟩

/-- A tag that code does not give a state stays open. -/
theorem Made.keeps_open {p : Phrase} {cur : List Op} {code : Code} (h : Made ctx L cur p code L')
    (htag : tag ∉ p.enters) (hopen : L.Open tag) : L'.Open tag :=
  (h.open_iff tag).mpr ⟨hopen, htag⟩

/-- What stands around a statement is known, and the root machine goes to tags of its own only. -/
structure Ready (ctx : Context) (L : Ledger) : Prop where
  known : Known ctx L
  near : L.pendingJump = none → ∀ t ∈ ctx.targets, L.tags.owner t = L.machine

namespace Ready

theorem grow (h : Ready ctx L) (hgrows : L.Grows L') : Ready ctx L' where
  known := h.known.grow hgrows
  near := fun hroot t ht => by
    rw [hgrows.tags.owner_eq (h.known t ht), hgrows.machine]
    exact h.near (hgrows.pendingJump ▸ hroot) t ht

/-- A target of the machine at hand, whose tags were just made. -/
theorem target {k : Control} {n : Nat} (h : Ready ctx L)
    (hk : ∀ t ∈ k.breakTag :: k.continueTag.toList, ∃ i < n, t = L.tagAt i) :
    Ready (ctx.enter k) (L.reserve n) where
  known := h.known.reserve hk
  near := fun hroot t ht => by
    rcases Context.targets_enter ht with ht | ht
    · exact (h.grow (L.reserve_grows n)).near hroot t ht
    · obtain ⟨i, hi, rfl⟩ := hk t ht
      exact L.owner_reserve hi

theorem pushScope (h : Ready ctx L) : Ready ctx L.pushScope := ⟨h.known, h.near⟩

/-- A nested machine passes transfers on to the enclosing one. -/
theorem nest (h : Ready ctx L) (id : MachineId) (g : Ledger.GuardNames) :
    Ready ctx (L.nest id g) where
  known := h.known
  near := fun hroot => by cases hroot

theorem route (h : Ready ctx L) (htag : tag ∈ ctx.targets) : Throws E (L.route ctx tag) := by
  unfold Ledger.route
  split
  · exact throws_ok _
  · next howner =>
    cases hpending : L.pendingJump with
    | none => exact absurd (h.near hpending tag htag) howner
    | some => exact throws_ok _

theorem routeAll {field : SymbolId} {exits : List Tag} (h : Ready ctx L)
    (hexits : ∀ t ∈ exits, t ∈ ctx.targets) : Throws E (L.routeAll ctx field exits) := by
  induction exits generalizing L with
  | nil => exact throws_ok _
  | cons tag exits ih =>
    obtain ⟨htag, hrest⟩ := forall_mem_cons.mp hexits
    refine (h.route htag).bind fun r hr => ?_
    exact (ih (h.grow (route_grows hr)) hrest).bind fun _ _ => throws_ok _

theorem settleOps {cur : List Op} {g : Ledger.GuardNames} {exits : List Tag} (h : Ready ctx L)
    (hexits : ∀ t ∈ exits, t ∈ ctx.targets) : Throws E (settleOps L ctx cur g exits) := by
  unfold Lowering.settleOps
  split
  · exact throws_ok _
  · exact (h.routeAll hexits).bind fun _ _ => throws_ok _

end Ready

end Tags

/-! ## Constructs -/

/-- Wherever jumps are ready, the sketch fails with errors of `E` only. -/
def Fails (E : LoweringError → Prop) (ctx : Context) (p : Sketch) : Prop :=
  ∀ ⦃cur : List Op⦄ ⦃L : Ledger⦄, Ready ctx L → Throws E (p cur L)

section Constructs

variable {L : Ledger} {catches : List CatchClause} {cur : List Op} {cases : List SwitchCase}
variable {E : LoweringError → Prop} {ctx : Context} {loc : Location}

variable {p : Sketch} {body : List Stmt}

theorem scope_fails (h : Fails E ctx p) : Fails E ctx (Sketch.scope p) :=
  fun _ _ hready => (h hready.pushScope).bind fun _ _ => throws_ok _

theorem andThen_fails {q : Sketch} {ph : Phrase} (hp : Fails E ctx p) (hmade : Makes ctx p ph)
    (hq : Fails E ctx q) : Fails E ctx (p.andThen q) := by
  intro cur L hready
  refine (hp hready).bind fun r hr => ?_
  exact (hq (hready.grow (hmade hr).grows)).bind fun _ _ => throws_ok _

theorem sketchAll_fails {ss : List Stmt} (h : ∀ t ∈ ss, Fails E ctx (t.sketch ctx)) :
    Fails E ctx (sketchAll ss ctx) := by
  induction ss with
  | nil => exact fun _ _ _ => throws_ok _
  | cons t ss ih =>
    obtain ⟨ht, hss⟩ := forall_mem_cons.mp h
    exact andThen_fails ht (sketch_made t ctx) (ih hss)

theorem unlessPlain_fails {s : Stmt} {p : Context → Sketch}
    (h : s.needsLowering ctx.markers → Fails E ctx (p ctx)) :
    Fails E ctx (Sketch.unlessPlain s p ctx) := by
  intro cur L hready
  unfold Sketch.unlessPlain
  split
  · next hneeds => exact h hneeds hready
  · exact throws_ok _

theorem declare_fails {d : LocalDecl} (hd : d.name.symbol.isSome)
    (hinit : ∀ e ∈ d.init, Blames E ctx loc e) : Fails E ctx (Sketch.declare d loc ctx) :=
  fun _ _ _ => (symbolOf_throws hd).bind fun _ _ =>
    (checkAll_throws fun e he => hinit e (Option.mem_toList.mp he)).bind fun _ _ => throws_ok _

theorem yield_fails (arg : Expr) : Fails E ctx (Sketch.yield arg) :=
  fun _ L _ => (enter_throws (L.open_new Nat.one_pos)).bind fun _ _ => throws_ok _

theorem yieldAll_fails (arg : Expr) : Fails E ctx (Sketch.yieldAll arg ctx) :=
  fun _ L _ => (enter_throws (open_new (L.newField ..) Nat.one_pos)).bind fun _ _ => throws_ok _

/-- Where a marker is the reason to lower, the marker is to blame. -/
theorem misplaced_fails {e : Expr} {st : Stmt} (h : Blames E ctx loc e)
    (hneeds : st.needsLowering ctx.markers)
    (hst : st = .expr e loc ∨ st = .raise e loc := by simp) :
    Fails E ctx (Sketch.misplaced e loc ctx) := by
  refine fun _ _ _ => (check_throws h).bind fun _ hcheck => ?_
  have hnone : e.findMarker? ctx.markers = none := check_ok hcheck
  have hplain : st.needsLowering ctx.markers = false := by
    rcases hst with rfl | rfl <;> simp [Stmt.needsLowering, Stmt.leaves, hnone]
  rw [hplain] at hneeds
  cases hneeds

theorem expr_fails {e : Expr} (hplain : e.asMarker? ctx.markers = none → Blames E ctx loc e)
    (harg : ∀ kind arg, e.asMarker? ctx.markers = some (kind, arg) → Blames E ctx loc arg) :
    Fails E ctx (Sketch.expr e loc ctx) := by
  intro cur L hready
  unfold Sketch.expr
  cases hmarker : e.asMarker? ctx.markers with
  | none => exact unlessPlain_fails (fun hneeds => misplaced_fails (hplain hmarker) hneeds) hready
  | some marker =>
    obtain ⟨kind, arg⟩ := marker
    refine (check_throws (harg kind arg hmarker)).bind fun _ _ => ?_
    cases kind with
    | emit => exact yield_fails arg hready
    | emitAll => exact yieldAll_fails arg hready

theorem route_fails {tag : Tag} (h : tag ∈ ctx.targets) : Fails E ctx (Sketch.route ctx tag) :=
  fun _ _ hready => (hready.route h).bind fun _ _ => throws_ok _

theorem brk_fails {label : Option String}
    (h : ctx.breakTag? label = none → E (.unmatchedBreak label loc)) :
    Fails E ctx (Sketch.brk label loc ctx) :=
  fun _ _ hready => (need_throws h).bind fun _ htag =>
    route_fails (mem_cons_of_mem _ (Context.breakTag_mem (need_ok htag))) hready

theorem cont_fails {label : Option String}
    (h : ctx.continueTag? label = none → E (.unmatchedContinue label loc)) :
    Fails E ctx (Sketch.cont label loc ctx) :=
  fun _ _ hready => (need_throws h).bind fun _ htag =>
    route_fails (mem_cons_of_mem _ (Context.continueTag_mem (need_ok htag))) hready

theorem branch_fails {p : Option (Context → Sketch)} (h : ∀ q ∈ p, Fails E ctx (q ctx)) :
    Fails E ctx (Sketch.branch p ctx) := by
  intro cur L hready
  cases p with
  | none => exact throws_ok _
  | some p => exact scope_fails (h p rfl) hready

theorem cond_fails {test : Expr} {yes : Stmt} {no : Option Stmt} (htest : Blames E ctx loc test)
    (hyes : Fails E ctx (yes.sketch ctx)) (hno : ∀ s ∈ no, Fails E ctx (s.sketch ctx)) :
    Fails E ctx (Sketch.cond test loc yes.sketch (sketchElse no) ctx) := by
  intro cur L hready
  refine (check_throws htest).bind fun _ _ => (scope_fails hyes hready).bind fun r hr => ?_
  have hready₁ := hready.grow (scope_made (sketch_made yes ctx) hr).grows
  have hbranch : Fails E ctx (Sketch.branch (sketchElse no) ctx) := branch_fails fun q hq => by
    cases no with
    | none => cases hq
    | some s =>
      cases hq
      exact hno s rfl
  refine (hbranch hready₁).bind fun q _ => ?_
  dsimp only
  split
  · exact throws_ok _
  · exact (enter_throws (open_new _ Nat.one_pos)).bind fun _ _ => throws_ok _

/-! ### Loops -/

section Loops

variable {label : Option String} {body : Stmt}
  (hbody : ∀ k : Control, k.kind = .loop → k.label = label → k.continueTag.isSome →
    Fails E (ctx.enter k) (body.sketch (ctx.enter k)))

include hbody

theorem loop_fails {testFirst : Bool} {test : Option Expr} {start : List Op} {update : List Expr} :
    Fails E ctx (Sketch.loop ⟨label, testFirst, test, start, update⟩ loc body.sketch ctx) := by
  generalize hshape : (⟨label, testFirst, test, start, update⟩ : Part.LoopShape) = shape
  intro cur L hready
  have hcount : 3 ≤ shape.tagCount := by
    unfold Part.LoopShape.tagCount
    split <;> omega
  refine (enter_throws (L.open_new (by omega))).bind fun L₁ hL₁ => ?_
  have hready₁ := (hready.target (shape.control_tags L)).grow (enter_grows hL₁)
  have hround := hbody (shape.control L) rfl (congrArg Part.LoopShape.label hshape.symm) rfl
  refine (scope_fails hround hready₁).bind fun r hr => ?_
  -- the tags but that of the body wait behind the body
  have hopen : ∀ i < shape.tagCount, i ≠ 0 → r.2.Open (L.tagAt i) := fun i hi hne =>
    (scope_made (sketch_made body _) hr).keeps_open not_mem_nil
      ((open_enter hL₁ _).mpr ⟨L.open_new hi, L.tagAt_ne hne⟩)
  refine (enterAll_throws (fun t ht => ?_) ?_).bind fun _ _ => throws_ok _
  · unfold Part.LoopShape.tailTags at ht
    cases hempty : shape.update.isEmpty with
    | true =>
      have ht : t = L.tagAt 1 ∨ t = L.tagAt 2 := by simpa [hempty] using ht
      rcases ht with rfl | rfl <;> exact hopen _ (by omega) (by omega)
    | false =>
      have hfour : shape.tagCount = 4 := by simp [Part.LoopShape.tagCount, hempty]
      have ht : t = L.tagAt 3 ∨ t = L.tagAt 1 ∨ t = L.tagAt 2 := by simpa [hempty] using ht
      rcases ht with rfl | rfl | rfl <;> exact hopen _ (by omega) (by omega)
  · unfold Part.LoopShape.tailTags
    split <;> simp [Ledger.tagAt]

theorem testLoop_fails {testFirst : Bool} {test : Expr} (htest : Blames E ctx loc test) :
    Fails E ctx (Sketch.testLoop label testFirst test loc body.sketch ctx) :=
  fun _ _ hready => (check_throws htest).bind fun _ _ => loop_fails hbody hready

theorem forLoop_fails {init : List Stmt} {test : Option Expr} {update : List Expr}
    (hinit : ∀ t ∈ init, Fails E ctx (t.sketch ctx)) (htest : ∀ e ∈ test, Blames E ctx loc e)
    (hupdate : ∀ e ∈ update, Blames E ctx loc e) :
    Fails E ctx (Sketch.forLoop label (sketchAll init) test update loc body.sketch ctx) :=
  fun _ _ hready => (checkAll_throws fun e he => htest e (Option.mem_toList.mp he)).bind fun _ _ =>
    (checkAll_throws hupdate).bind fun _ _ =>
      scope_fails (andThen_fails (sketchAll_fails hinit) (sketchAll_made init ctx)
        (loop_fails hbody)) hready

theorem forEach_fails {var : LocalDecl} {iterable : Expr} (hvar : var.name.symbol.isSome)
    (hiterable : Blames E ctx loc iterable) :
    Fails E ctx (Sketch.forEach label var iterable loc body.sketch ctx) := by
  refine fun _ _ hready => (check_throws hiterable).bind fun _ _ =>
    (symbolOf_throws hvar).bind fun x _ => ?_
  refine scope_fails (fun cur L hready => ?_) hready
  have hgrows := ((L.newField_grows ctx "iter" (TypeRef.iteratorOf var.type) .synthetic).trans
    (dropIfCleared_grows _ ctx L.nextSymbol (TypeRef.iteratorOf var.type))).trans
    (captureLocal_grows _ ctx x var.type)
  exact (loop_fails hbody (hready.grow hgrows)).bind fun _ _ => throws_ok _

end Loops

/-! ### Switches, labels and locks -/

theorem caseStates_fails {endTag : Tag} {tags : List Tag}
    (hcases : ∀ c ∈ cases, Fails E ctx (sketchAll c.body ctx)) (hready : Ready ctx L)
    (hopen : ∀ t ∈ tags, L.Open t) (hnodup : tags.Nodup) :
    Throws E (Sketch.caseStates ctx endTag ((sketchCases cases).zip tags) cur L) := by
  induction cases generalizing tags cur L with
  | nil => exact throws_ok _
  | cons case cases ih =>
    obtain ⟨labels, isDefault, body⟩ := case
    cases tags with
    | nil => exact throws_ok _
    | cons =>
      obtain ⟨hnew, hnodup⟩ := nodup_cons.mp hnodup
      obtain ⟨htag, htags⟩ := forall_mem_cons.mp hopen
      obtain ⟨hcase, hcases⟩ := forall_mem_cons.mp hcases
      refine (enter_throws htag).bind fun L₁ hL₁ => ?_
      have hready₁ := hready.grow (enter_grows hL₁)
      refine (hcase hready₁).bind fun r hr => ?_
      have hmade := sketchAll_made body ctx hr
      refine (ih hcases (hready₁.grow hmade.grows) (fun t ht => ?_) hnodup).bind fun _ _ =>
        throws_ok _
      exact hmade.keeps_open not_mem_nil
        ((open_enter hL₁ t).mpr ⟨htags t ht, fun heq => hnew (heq ▸ ht)⟩)

theorem Ledger.nodup_caseTags (L : Ledger) (n : Nat) : (L.caseTags n).Nodup :=
  List.Pairwise.map _ (fun _ _ hne => L.tagAt_ne fun heq => hne (Nat.succ.inj heq)) nodup_range

theorem switch_fails {selector : Expr} (hselector : Blames E ctx loc selector)
    (hlabels : ∀ e ∈ cases.flatMap SwitchCase.labels, Blames E ctx loc e)
    (hcases : ∀ k : Control, k.kind = .switch → k.label = none → ∀ c ∈ cases,
      Fails E (ctx.enter k) (sketchAll c.body (ctx.enter k))) :
    Fails E ctx (Sketch.switch selector loc (sketchCases cases) ctx) := by
  refine fun _ _ hready => (check_throws hselector).bind fun _ _ =>
    (checkAll_throws ?_).bind fun _ _ => ?_
  · rw [map_fst_sketchCases]
    exact hlabels
  refine scope_fails (fun cur L hready => ?_) hready
  simp only [Sketch.choice, map_fst_sketchCases, length_sketchCases]
  have hopen : ∀ t ∈ L.caseTags cases.length, (L.reserve (cases.length + 1)).Open t :=
    fun t ht => by
    obtain ⟨i, hi, rfl⟩ := mem_map.mp ht
    exact L.open_new (Nat.succ_lt_succ (mem_range.mp hi))
  have hready₁ := hready.target (k := ⟨.switch, none, L.tagAt 0, none, L.scopes.length⟩)
    (n := cases.length + 1) Control.tags_single
  refine (caseStates_fails (hcases _ rfl rfl) hready₁ hopen (L.nodup_caseTags _)).bind fun r hr =>
    ?_
  have hmade := caseStates_made cases _ (sketchCases_made cases _) hr
  refine (enter_throws (hmade.keeps_open (fun hmem => ?_) (L.open_new (Nat.succ_pos _)))).bind
    fun _ _ => throws_ok _
  obtain ⟨case, hcase, heq⟩ := mem_map.mp hmem
  obtain ⟨i, -, htag⟩ := mem_map.mp (of_mem_zip hcase).2
  exact L.tagAt_ne (Nat.succ_ne_zero i) (htag.trans heq)

/-- A labelled statement: its label may be in force already. -/
theorem checked_fails {label : String}
    (hlabel : (∃ k ∈ ctx.controls, k.label = some label) → E (.duplicateLabel label loc))
    (hp : (∀ k ∈ ctx.controls, k.label ≠ some label) → Fails E ctx p) :
    Fails E ctx fun cur L => Sketch.checkLabel ctx label loc >>= fun _ => p cur L := by
  intro cur L hready
  refine Throws.bind ?_ fun _ hcheck => hp (checkLabel_ok hcheck) hready
  unfold Sketch.checkLabel
  split
  · next hfound => exact throws_error (hlabel (by simpa using hfound))
  · exact throws_ok _

theorem labeled_fails {label : String} {body : Stmt}
    (hbody : ∀ k : Control, k.kind = .labeled → k.label = some label →
      Fails E (ctx.enter k) (body.sketch (ctx.enter k))) :
    Fails E ctx (Sketch.labeled label body.sketch ctx) := by
  intro cur L hready
  refine (scope_fails (hbody _ rfl rfl) (hready.target Control.tags_single)).bind fun r hr => ?_
  have hmade := scope_made (sketch_made body _) hr
  exact (enter_throws (hmade.keeps_open not_mem_nil (L.open_new Nat.one_pos))).bind fun _ _ =>
    throws_ok _

theorem synchronized_fails {lock : Expr} (hlock : Blames E ctx loc lock)
    (hmarker : ∀ name place, Stmt.firstMarkerIn? ctx.markers body = some (name, place) →
      E (.illegalSuspension name place))
    (hstates : Stmt.firstMarkerIn? ctx.markers body = none → E (.unsplittableLock loc) ∨
      ∀ cur L code L', sketchAll body ctx cur L = .ok (code, L') → code.states = [])
    (hbody : Fails E ctx (sketchAll body ctx)) :
    Fails E ctx (Sketch.synchronized lock (fun m => Stmt.firstMarkerIn? m body) loc
      (sketchAll body) ctx) := by
  refine fun _ L hready => (check_throws hlock).bind fun _ _ => ?_
  dsimp only
  split
  · next name place hfound => exact throws_error (hmarker name place hfound)
  · next hnone =>
    refine (scope_fails hbody hready).bind fun r hr => ?_
    split
    · exact throws_ok _
    · next hsplit =>
      rcases hstates hnone with h | h
      · exact throws_error h
      · obtain ⟨q, hq, hrun⟩ := exists_of_bind_ok hr
        cases hrun
        obtain ⟨⟨ops, states⟩, L'⟩ := q
        cases h _ _ _ _ hq
        exact absurd rfl hsplit

/-! ### Guards -/

theorem handlers_fails (hparams : ∀ c ∈ catches, c.param.symbol.isSome)
    (hcatches : ∀ c ∈ catches, Fails E ctx (sketchAll c.body ctx)) (hready : Ready ctx L) :
    Throws E (Sketch.handlers ctx (sketchCatches catches) cur L) := by
  induction catches generalizing cur L with
  | nil => exact throws_ok _
  | cons c catches ih =>
    obtain ⟨param, types, body⟩ := c
    obtain ⟨hparam, hparams⟩ := forall_mem_cons.mp hparams
    obtain ⟨hcatch, hcatches⟩ := forall_mem_cons.mp hcatches
    refine (symbolOf_throws hparam).bind fun x hx =>
      (enter_throws (L.open_new Nat.one_pos)).bind fun L₁ hL₁ => ?_
    have hready₁ := (hready.grow (L.reserve_grows 1)).grow (enter_grows hL₁)
    refine (scope_fails (fun _ L hready => ?_) hready₁).bind fun r hr => ?_
    · exact hcatch (hready.grow (L.captureLocal_grows ctx x (CatchClause.paramTypeOf types)))
    · have hbody : Makes ctx
          (fun cur L => sketchAll body ctx cur
            (L.captureLocal ctx x (CatchClause.paramTypeOf types)))
          (.handler x types body) := fun _ _ _ _ hrun => .handler (sketchAll_made body ctx hrun)
      have hmade := scope_made hbody hr
      exact (ih hparams hcatches (hready₁.grow hmade.grows)).bind fun _ _ => throws_ok _

theorem guardedBody_fails {resources : List (SymbolId × Option Expr)}
    (hbody : Fails E ctx (sketchAll body ctx)) (hparams : ∀ c ∈ catches, c.param.symbol.isSome)
    (hcatches : ∀ c ∈ catches, Fails E ctx (sketchAll c.body ctx)) (hready : Ready ctx L) :
    Throws E (Sketch.guardedBody ctx resources (sketchAll body) (sketchCatches catches) cur L) := by
  have hopening : Fails E ctx (Sketch.opening resources (Sketch.scope (sketchAll body ctx))) :=
    fun _ _ hready => (scope_fails hbody hready).bind fun _ _ => throws_ok _
  refine (scope_fails hopening hready).bind fun r hr => ?_
  have hmade := opened_made (sketchAll_made body ctx) hr
  exact (handlers_fails hparams hcatches (hready.grow hmade.grows)).bind fun _ _ => throws_ok _

theorem tryCatch_fails {resources : List LocalDecl} {final : Option (List Stmt)}
    (hresources : ∀ d ∈ resources, d.name.symbol.isSome)
    (hinits : ∀ d ∈ resources, ∀ e ∈ d.init, Blames E ctx loc e)
    (hbody : Fails E ctx (sketchAll body ctx)) (hparams : ∀ c ∈ catches, c.param.symbol.isSome)
    (hcatches : ∀ c ∈ catches, Fails E ctx (sketchAll c.body ctx))
    (hfinal : ∀ ss ∈ final, Fails E ctx (sketchAll ss ctx)) :
    Fails E ctx (Sketch.tryCatch resources (sketchAll body) (sketchCatches catches)
      (sketchFinal final) loc ctx) := by
  intro cur L hready
  refine (checkAll_throws fun e he => ?_).bind fun _ _ =>
    (symbolsOf_throws fun x hx => ?_).bind fun xs _ => ?_
  · obtain ⟨d, hd, he⟩ := mem_flatMap.mp he
    exact hinits d hd e (Option.mem_toList.mp he)
  · obtain ⟨d, hd, rfl⟩ := mem_map.mp hx
    exact hresources d hd
  generalize hL₁ : L.declareGuard ctx (xs.zip (resources.map LocalDecl.type)) = L₁
  have htags : ∀ i, L₁.tagAt i = L.tagAt i := fun i => by rw [← hL₁, tagAt_declareGuard]
  have hready₁ : Ready ctx L₁ := hready.grow (hL₁ ▸ L.declareGuard_grows ctx _)
  simp only [← htags]
  refine (enter_throws (L₁.open_new (Nat.succ_pos 2))).bind fun L₂ hL₂ => ?_
  have hopen₂ : ∀ i < 3, i ≠ 0 → L₂.Open (L₁.tagAt i) := fun i hi hne =>
    (open_enter hL₂ _).mpr ⟨L₁.open_new hi, L₁.tagAt_ne hne⟩
  have hready₂ := (hready₁.grow (L₁.reserve_grows 3)).grow (enter_grows hL₂)
  -- the nested machine
  refine (guardedBody_fails hbody hparams hcatches (hready₂.nest _ _)).bind fun r hr => ?_
  obtain ⟨hs, inner, Lin⟩ := r
  have hinner := guardedBody_made (sketchAll_made body ctx) (sketchCatches_made catches ctx) hr
  have hready₃ := hready₂.grow (unnest_grows hinner.grows)
  have hopen₃ : ∀ i < 3, i ≠ 0 → (Lin.unnest L₂).Open (L₁.tagAt i) := fun i hi hne =>
    hinner.keeps_open not_mem_nil (hopen₂ i hi hne)
  have htargets : ∀ t ∈ Lin.exits, t ∈ ctx.targets := fun t ht =>
    ((hinner.exits_targets hready₂.known t ht).resolve_left not_mem_nil).1
  -- the final code
  refine (enter_throws (hopen₃ 1 (by omega) (by omega))).bind fun L₃ hL₃ => ?_
  have hopen₄ : L₃.Open (L₁.tagAt 2) :=
    (open_enter hL₃ _).mpr ⟨hopen₃ 2 (by omega) (by omega), L₁.tagAt_ne (by omega)⟩
  have hready₄ := hready₃.grow (enter_grows hL₃)
  have hbranch : Fails E ctx (Sketch.branch (sketchFinal final) ctx) := branch_fails fun q hq => by
    cases final with
    | none => cases hq
    | some ss =>
      cases hq
      exact hfinal ss rfl
  refine (hbranch hready₄).bind fun q hq => ?_
  have hcode := sketchFinal_made final ctx hq
  refine ((hready₄.grow hcode.grows).settleOps htargets).bind fun p hp => ?_
  refine (enter_throws ?_).bind fun _ _ => throws_ok _
  obtain ⟨exits, -, hexits⟩ := settleOps_exits hp
  rw [hexits]
  exact hcode.keeps_open not_mem_nil hopen₄

end Constructs

end Lowering

end Resumable
