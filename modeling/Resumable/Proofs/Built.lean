import Resumable.Generator
import Resumable.Proofs.Frames

/-!
# Lowering draws the sketch of a statement

What lowering a statement adds to the frame at hand is what the sketch of the statement makes, and
where one of them fails, so does the other, with the same error.

* `Building` follows code while it grows: at a cursor of a view, by the steps of lowering;
* `Draws` ties a step of lowering to a sketch; each construct has a lemma that takes its parts'
  lemmas to its own;
* `lower_draws` ties these together by recursion on the statement, and `Procedure.lower_eq` says
  what lowering a procedure is.
-/

namespace Resumable

open List

namespace Lowering

open Ledger Code

/-! ## Code in views -/

theorem View.grow_opened (v : View) : v.grow [[]] = v.openState := View.put_nil ..

theorem Cursor.after_snoc (c : Cursor) (n : Nat) (ops s : List Op) (ss : List (List Op)) :
    c.after n ⟨ops, ss ++ [s]⟩ = .state ⟨n + ss.length + 1⟩ := by
  cases ss with
  | nil => rfl
  | cons => simp [after, Nat.add_assoc]

/-! ## Code that grows -/

/-- In the state `s`, with the ledger `L`, the code at the cursor `c` of the view `v` has grown to
`code`, and it goes on at `c'`. -/
structure Building (v : View) (c : Cursor) (s : State) (L : Ledger) (code : Code) (c' : Cursor) :
    Prop where
  tidy : v.Tidy
  has : v.Has c
  looks : Looks s L (v.add c code)
  cursor : c' = c.after v.size code

/-- The step draws what the sketch makes, wherever it stands. -/
def Draws (step : Cursor → Lower Cursor) (p : Sketch) : Prop :=
  ∀ ⦃v : View⦄ ⦃c : Cursor⦄ ⦃s : State⦄ ⦃L : Ledger⦄, v.Has c → Looks s L v →
    Agrees (fun c' s' r => Building v c s' r.2 r.1 c') (step c s) (p (v.ops c) L)

section Runs

variable {γ δ : Type} {s : State} {R : γ → State → δ → Prop} {z : Except LoweringError δ}

theorem Agrees.afterGet {f : State → Lower γ} (h : Agrees R (f s s) z) :
    Agrees R ((get >>= f) s) z := h

theorem Agrees.afterModify {g : State → State} {f : PUnit → Lower γ} (h : Agrees R (f ⟨⟩ (g s)) z) :
    Agrees R ((modify g >>= f) s) z := h

end Runs

namespace Building

variable {v : View} {c c' c'' : Cursor} {s s' : State} {L L' : Ledger} {A B : Code} {γ δ : Type}
  {R : γ → State → δ → Prop} {z : Except LoweringError δ}

theorem start (hc : v.Has c) (h : Looks s L v) : Building v c s L (.now []) c where
  tidy := h.tidy
  has := hc
  looks := by
    rw [View.add_now, View.put_nil]
    exact h
  cursor := rfl

variable (h : Building v c s L A c')

include h

/-- A step that does not touch the view. -/
theorem step (h' : Looks s' L' (v.add c A)) : Building v c s' L' A c' :=
  ⟨h.tidy, h.has, h', h.cursor⟩

theorem run {α : Type} {x : Lower α} {a : α} {f : α → Lower γ}
    (hx : Yields x s a L' (v.add c A)) (hf : ∀ s', Building v c s' L' A c' → Agrees R (f a s') z) :
    Agrees R ((x >>= f) s) z := .step hx fun s' h' => hf s' (h.step h')

theorem ops_eq : (v.add c A).ops c' = A.stop (v.ops c) := by
  rw [h.cursor, View.ops_after h.tidy h.has]

theorem has_stop : (v.add c A).Has c' := h.cursor ▸ h.has.after A

theorem append (h' : Building (v.add c A) c' s' L' B c'') : Building v c s' L' (A ++ B) c'' where
  tidy := h.tidy
  has := h.has
  looks := by
    rw [← View.add_add, ← h.cursor]
    exact h'.looks
  cursor := by rw [h'.cursor, h.cursor, View.add_size, Cursor.after_append]

/-- Ops at the end of the code. -/
theorem put {ops : List Op} (h' : Looks s' L' ((v.add c A).put c' ops)) :
    Building v c s' L' (A ++ .now ops) c' :=
  h.append ⟨h.looks.tidy, h.has_stop, h', rfl⟩

variable {f : Unit → Lower γ} {g : Ledger → Except LoweringError δ}

theorem emit {op : Op} (hf : ∀ s', Building v c s' L (A ++ .now [op]) c' → Agrees R (f () s') z) :
    Agrees R ((Lowering.emit c' op >>= f) s) z :=
  .step (h.looks.emit h.has_stop op) fun s' h' => hf s' (h.put h')

theorem emitAll {ops : List Op} (hf : ∀ s', Building v c s' L (A ++ .now ops) c' →
    Agrees R (f () s') z) : Agrees R ((Lowering.emitAll c' ops >>= f) s) z :=
  .step (h.looks.emitAll h.has_stop ops) fun s' h' => hf s' (h.put h')

theorem isTerminal {f : Bool → Lower γ}
    (hf : ∀ s', Building v c s' L A c' → Agrees R (f (endsTerminal (A.stop (v.ops c))) s') z) :
    Agrees R ((Lowering.isTerminal c' >>= f) s) z :=
  h.run (h.ops_eq ▸ h.looks.isTerminal c') hf

theorem endWith {op : Op} (hf : ∀ s', Building v c s' L (A.sealed (v.ops c) op) c' →
    Agrees R (f () s') z) : Agrees R ((Lowering.endWith c' op >>= f) s) z := by
  refine .step (h.looks.endWith h.has_stop op) fun s' h' => hf s' ?_
  rw [h.ops_eq] at h'
  exact h.put h'

theorem enterState {tag : Tag} {f : Cursor → Lower γ}
    (hf : ∀ c'' s' L', L.enter tag = .ok L' → Building v c s' L' (A ++ .opened) c'' →
      Agrees R (f c'' s') (g L')) :
    Agrees R ((Lowering.enterState tag >>= f) s) (L.enter tag >>= g) := by
  refine (h.looks.enterState tag).bind fun c'' s' L' henter hs => hf c'' s' L' henter ?_
  refine h.append ⟨h.looks.tidy, h.has_stop, ?_, hs.1⟩
  rw [View.add_opened]
  exact hs.2

theorem continueAt {tag : Tag} {f : Cursor → Lower γ} (hf : ∀ c'' s' L', L.enter tag = .ok L' →
      Building v c s' L' (A.sealed (v.ops c) (.jump tag) ++ .opened) c'' →
      Agrees R (f c'' s') (g L')) :
    Agrees R ((Lowering.continueAt c' tag >>= f) s) (L.enter tag >>= g) := by
  unfold Lowering.continueAt
  rw [bind_assoc]
  exact h.endWith fun s₁ h₁ => h₁.enterState hf

/-- A part that is drawn behind the code. -/
theorem part {step : Cursor → Lower Cursor} {p : Sketch} {cur : List Op} {f : Cursor → Lower γ}
    {g : Code × Ledger → Except LoweringError δ} (hstep : Draws step p)
    (hcur : A.stop (v.ops c) = cur)
    (hf : ∀ c'' s' B L', p cur L = .ok (B, L') → Building v c s' L' (A ++ B) c'' →
      Agrees R (f c'' s') (g (B, L'))) :
    Agrees R ((step c' >>= f) s) (p cur L >>= g) := by
  have hpart := hstep h.has_stop h.looks
  rw [h.ops_eq, hcur] at hpart
  exact hpart.bind fun c'' s' r hrun hb => hf c'' s' r.1 r.2 hrun (h.append hb)

end Building

/-! ## Scopes and simple statements -/

section Parts

variable {N Y code : Code} {p : Context → Sketch} {c₁ : Cursor} {step : Cursor → Lower Cursor}
  {resources : List (SymbolId × Option Expr)} {catches : List CatchClause} {cases : List SwitchCase}
  {body part : Part} {shape : Part.LoopShape} {label : String} {v w : View}
variable {ctx : Context} {loc : Location} {v : View} {c : Cursor} {s : State}
  {L : Ledger} {A : Code}

theorem withScope_draws {p : Sketch} (hstep : Draws step p) :
    Draws (withScope step) (Sketch.scope p) := by
  intro v c s L hc h
  refine .afterModify ((hstep hc h.pushScope).bind fun stop s₁ r _ hb => .afterGet
    (.afterModify ?_))
  obtain ⟨code, L₁⟩ := r
  refine (hb.step hb.looks.popScope).isTerminal fun s₂ hb₂ => ?_
  dsimp only at hb hb₂ ⊢
  rw [hb.looks.scopes_eq]
  by_cases hterminal : endsTerminal (code.stop (v.ops c))
  · rw [if_pos hterminal, if_pos hterminal, Code.append_nil]
    exact hb₂
  · rw [if_neg hterminal, if_neg hterminal]
    exact hb₂.emitAll fun s₃ hb₃ => hb₃

theorem unlessPlain_draws {st : Stmt} (h : Draws (part ctx) (p ctx)) :
    Draws (part.unlessPlain st ctx) (Sketch.unlessPlain st p ctx) := by
  intro v c s L hc hs
  unfold Part.unlessPlain Sketch.unlessPlain
  split
  · exact h hc hs
  · exact (Building.start hc hs).emit fun s₁ hb => hb

theorem Looks.emitOption (h : Looks s L v) (hc : v.Has c) (x : SymbolId) (e : Option Expr) :
    Yields (e.forM fun e => Lowering.emit c (.assign x e)) s () L
      (v.put c (e.toList.map (Op.assign x))) := by
  cases e with
  | none => exact ⟨s, rfl, (v.put_nil c).symm ▸ h⟩
  | some => exact h.emit hc _

theorem declare_draws (d : LocalDecl) :
    Draws (Part.declare d loc ctx) (Sketch.declare d loc ctx) := by
  intro v c s L hc h
  refine (declared_reads d.name).bind fun x _ => (checkOption_reads d.init).bind fun _ _ => ?_
  refine .step (h.captureLocal ctx x d.type) fun s₁ h₁ =>
    .step (h₁.emitOption hc x d.init) fun s₂ h₂ => ?_
  exact ⟨h.tidy, hc, h₂, rfl⟩

theorem yieldAll_draws (arg : Expr) : Draws (Part.yieldAll arg ctx) (Sketch.yieldAll arg ctx) := by
  intro v c s L hc h
  refine .step (h.newField ctx "delegate" (TypeRef.iteratorOf ctx.elementType) .synthetic)
    fun s₁ h₁ => ?_
  refine (Building.start hc h₁).emit fun s₂ hb => hb.run hb.looks.freshTag fun s₃ hb => ?_
  refine hb.continueAt fun c₁ s₄ L' henter hb => .afterGet (hb.emit fun s₅ hb₅ => ?_)
  obtain ⟨tags, _, rfl⟩ := enter_ok henter
  rw [hb.looks.symbols_eq, show Code.now [] ++ Code.now [Op.assign L.nextSymbol arg] =
    .now [.assign L.nextSymbol arg] from rfl, sealed_now _ (by simp) rfl] at hb₅
  unfold Sketch.pollOps
  split
  · exact hb₅.emit fun s₆ hb₆ => hb₆
  · exact hb₅

theorem misplaced_draws (e : Expr) : Draws (fun _ => do
    checkNoMarker ctx loc e
    throw (.defect (.noMarker loc))) (Sketch.misplaced e loc ctx) :=
  fun _ _ _ _ _ _ => (checkNoMarker_reads e).bind fun _ _ => rfl

theorem raise_draws (e : Expr) :
    Draws (Part.raise e loc ctx) (Sketch.unlessPlain (.raise e loc) (Sketch.misplaced e loc) ctx) :=
  unlessPlain_draws (misplaced_draws e)

theorem expr_draws (e : Expr) : Draws (Part.expr e loc ctx) (Sketch.expr e loc ctx) := by
  intro v c s L hc h
  unfold Part.expr Sketch.expr
  cases e.asMarker? ctx.markers with
  | none => exact unlessPlain_draws (misplaced_draws e) hc h
  | some marker =>
    refine (checkNoMarker_reads marker.2).bind fun _ _ => ?_
    cases marker.1 with
    | emit =>
      refine .step h.freshTag fun s₁ h₁ => (Building.start hc h₁).emit fun s₂ hb =>
        hb.emit fun s₃ hb => .last ?_
      exact hb.enterState fun c₁ s₄ L' _ hb => hb
    | emitAll => exact yieldAll_draws marker.2 hc h

theorem transfer_draws (tag : Tag) : Draws (transfer ctx tag) (Sketch.route ctx tag) := by
  intro v c s L hc h
  refine (h.transferOps ctx tag).bind fun ops s₁ r _ hs => ?_
  obtain ⟨rfl, h₁⟩ := hs
  exact .step (h₁.emitAll hc r.1) fun s₂ h₂ => ⟨h.tidy, hc, h₂, rfl⟩

theorem ret_draws (value : Option Expr) :
    Draws (Part.ret value loc ctx) (Sketch.ret value loc ctx) := by
  cases value with
  | none => exact transfer_draws .finished
  | some => exact fun _ _ _ _ _ _ => rfl

theorem brk_draws (label : Option String) :
    Draws (Part.brk label loc ctx) (Sketch.brk label loc ctx) :=
  fun _ _ _ _ hc h => (breakTarget_reads label).bind fun tag _ => transfer_draws tag hc h

theorem cont_draws (label : Option String) :
    Draws (Part.cont label loc ctx) (Sketch.cont label loc ctx) :=
  fun _ _ _ _ hc h => (continueTarget_reads label).bind fun tag _ => transfer_draws tag hc h

/-! ## Choices -/

/-- A branch in a new buffer draws the sketch of a branch. -/
def BranchDraws (ctx : Context) (part : Option Part) (p : Option (Context → Sketch)) : Prop :=
  ∀ ⦃v : View⦄ ⦃s : State⦄ ⦃L : Ledger⦄, Looks s L v →
    Agrees (fun r s' q => r.1 = v.buffers ∧
      Building v.openBuffer (.scratch v.buffers) s' q.2 q.1 r.2)
      (Part.branch part ctx s) (Sketch.branch p ctx [] L)

theorem View.ops_newBuffer (hv : v.Tidy) : v.openBuffer.ops (.scratch v.buffers) = [] :=
  hv _ fun h => h.ne_buffer rfl

theorem branch_draws (hpart : Draws (part ctx) (p ctx)) : BranchDraws ctx (some part) (some p) := by
  intro v s L h
  refine .step h.newScratch fun s₁ h₁ => ?_
  have hrun := withScope_draws hpart v.has_buffer h₁
  rw [View.ops_newBuffer h.tidy] at hrun
  rw [← bind_pure (Sketch.branch _ ctx [] L)]
  exact hrun.bind fun c' s' r _ hb => ⟨rfl, hb⟩

theorem noBranch_draws : BranchDraws ctx none none :=
  fun v _ _ h => .step h.newScratch fun _ h₁ => ⟨rfl, .start v.has_buffer h₁⟩

/-- Both buffers of a choice are closed: the new states stay. -/
theorem takeBoth {γ δ : Type} {R : γ → State → δ → Prop} {z : Except LoweringError δ}
    {f : List Op → List Op → Lower γ} (hv : v.Tidy)
    (hw : w = v.openBuffer.add (.scratch v.buffers) Y)
    (h : Looks s L (w.openBuffer.add (.scratch w.buffers) N))
    (hf : ∀ s', Looks s' L (v.grow (Y.states ++ N.states)) → Agrees R (f N.ops Y.ops s') z) :
    Agrees R ((do
      let noOps ← takeScratch w.buffers
      let yesOps ← takeScratch v.buffers
      f noOps yesOps) s) z := by
  have hwtidy : w.Tidy := hw ▸ hv.openBuffer.add v.has_buffer Y
  have hbuffers : w.buffers = v.buffers + 1 := by rw [hw, View.add_buffers, View.openBuffer_buffers]
  have hlast : w.Has (.scratch v.buffers) := hw ▸ v.has_buffer.add _ Y
  have hno := h.takeScratch (i := w.buffers) (by simp)
  rw [View.ops_buffer hwtidy, View.closeBuffer_add hwtidy] at hno
  refine .step hno fun s₁ h₁ => ?_
  have hyes := h₁.takeScratch (i := v.buffers) (by rw [(View.grow_same ..).1, hbuffers])
  rw [View.ops_grow _ hlast, hw, View.ops_buffer hv, View.closeBuffer_grow, View.closeBuffer_add hv,
    ← View.grow_append] at hyes
  exact .step hyes hf

/-- The first branch is ended while the buffer of the second is open. -/
theorem endFirst {yesEnd : Cursor} (hv : v.Tidy) (hw : w = v.openBuffer.add (.scratch v.buffers) Y)
    (hend : yesEnd = (Cursor.scratch v.buffers).after v.openBuffer.size Y)
    (h : Looks s L (w.openBuffer.add (.scratch w.buffers) N)) (op : Op) :
    Yields (endWith yesEnd op) s () L
      ((v.openBuffer.add (.scratch v.buffers) (Y.sealed [] op)).openBuffer.add
      (.scratch w.buffers) N) := by
  have hhas : w.Has yesEnd := by
    rw [hw, hend]
    exact v.has_buffer.after Y
  have hops : (w.openBuffer.add (.scratch w.buffers) N).ops yesEnd = Y.stop [] := by
    rw [View.ops_add _ hhas.ne_buffer hhas.openBuffer, ← View.ops_newBuffer hv, hend, hw]
    exact View.ops_after hv.openBuffer v.has_buffer Y
  have h' := h.endWith (hhas.openBuffer.add _ N) op
  rw [hops, View.put_add _ hhas.ne_buffer.symm hhas.openBuffer] at h'
  rw [Code.sealed, ← View.add_add, ← hend, ← hw]
  exact h'

theorem cond_draws {test : Expr} {yes : Part} {no : Option Part} {yesSketch : Context → Sketch}
    {noSketch : Option (Context → Sketch)} (hyes : Draws (yes ctx) (yesSketch ctx))
    (hno : BranchDraws ctx no noSketch) :
    Draws (Part.cond test loc yes no ctx) (Sketch.cond test loc yesSketch noSketch ctx) := by
  intro v c s L hc h
  refine (checkNoMarker_reads test).bind fun _ _ => (branch_draws hyes h).bind fun r s₁ q _ hY => ?_
  obtain ⟨yesBuffer, yesEnd⟩ := r
  obtain ⟨Y, L₁⟩ := q
  obtain ⟨rfl, hbY⟩ := hY
  refine (hno hbY.looks).bind fun r s₂ q _ hN => ?_
  obtain ⟨noBuffer, noEnd⟩ := r
  obtain ⟨N, L₂⟩ := q
  obtain ⟨rfl, hbN⟩ := hN
  dsimp only at hbY hbN ⊢
  have hstay : (yesEnd = .scratch v.buffers ∧
      noEnd = .scratch (v.openBuffer.add (.scratch v.buffers) Y).buffers) ↔ Y.states = [] ∧
        N.states = [] := by
    rw [hbY.cursor, hbN.cursor, Cursor.after_scratch, Cursor.after_scratch]
  by_cases hstates : Y.states = [] ∧ N.states = []
  · rw [if_pos (hstay.mpr hstates), if_pos hstates]
    refine takeBoth h.tidy rfl hbN.looks fun s₃ h₃ => ?_
    rw [hstates.1, hstates.2] at h₃
    exact .step (h₃.emit hc _) fun s₄ h₄ => ⟨h.tidy, hc, h₄, rfl⟩
  · rw [if_neg fun h => hstates (hstay.mp h), if_neg hstates]
    refine .step hbN.looks.freshTag fun s₃ h₃ =>
      .step (endFirst h.tidy rfl hbY.cursor h₃ _) fun s₄ h₄ => ?_
    have hw : (v.openBuffer.add (.scratch v.buffers) (Y.sealed [] (.jump (L₂.tagAt 0)))).Tidy :=
      h.tidy.openBuffer.add v.has_buffer _
    have hbuffers : (v.openBuffer.add (.scratch v.buffers) Y).buffers
        = (v.openBuffer.add (.scratch v.buffers) (Y.sealed [] (.jump (L₂.tagAt 0)))).buffers := by
      rw [View.add_buffers, View.add_buffers]
    have hsize : (v.openBuffer.add (.scratch v.buffers) Y).size
        = (v.openBuffer.add (.scratch v.buffers) (Y.sealed [] (.jump (L₂.tagAt 0)))).size := by
      rw [View.add_size, View.add_size, length_states_sealed]
    have hcursor : noEnd = (Cursor.scratch _).after _ N := hbN.cursor
    rw [show ∀ w : View, w.openBuffer.size = w.size from fun _ => rfl, hsize, hbuffers] at hcursor
    rw [hbuffers] at h₄ ⊢
    generalize hw' : v.openBuffer.add (.scratch v.buffers)
      (Y.sealed [] (.jump (L₂.tagAt 0))) = w at *
    have hbN' : Building w.openBuffer (.scratch w.buffers) s₄ _ N noEnd :=
      ⟨hw.openBuffer, w.has_buffer, h₄, hcursor⟩
    refine hbN'.endWith fun s₅ hb => ?_
    rw [View.ops_newBuffer hw] at hb
    refine takeBoth h.tidy hw'.symm hb.looks fun s₆ h₆ =>
      .step (h₆.emit (hc.grow _) _) fun s₇ h₇ => ?_
    rw [View.put_grow _ hc] at h₇
    refine Agrees.last ?_
    unfold continueAt
    rw [bind_assoc]
    refine .step (h₇.endWith (View.Has.grow (v := v.put c _) hc _) _) fun s₈ h₈ => ?_
    rw [View.ops_grow (v.put c _) hc, View.ops_put_self, View.put_grow (v.put c _) hc,
      View.put_put] at h₈
    refine (h₈.enterState _).bind fun c' s₉ L' _ hs => ⟨h.tidy, hc, ?_, ?_⟩
    · rw [Sketch.splitCode, sealed_now_append, View.add, View.grow_append, View.grow_opened]
      exact hs.2
    · rw [hs.1, Sketch.splitCode, sealed_now_append, Cursor.after_snoc]
      simp [Nat.add_assoc]

/-! ## Loops -/

/-- Two ways to the same rest of a step. -/
theorem ite_bind {α β : Type} {b : Prop} [Decidable b] {x y : Lower α} {f : α → Lower β} :
    (if b then x >>= f else y >>= f) = (if b then x else y) >>= f := by
  split <;> rfl

/-- A step that is left out unless a condition holds. -/
theorem when_bind {β : Type} {b : Prop} [Decidable b] {x : Lower Unit} {f : Unit → Lower β} :
    (if b then x >>= f else f ()) = (if b then x else pure ()) >>= f := by
  split <;> rfl

/-- The tag for the updates of a loop, if it has any. -/
theorem Looks.updateTag (h : Looks s (L.reserve 3) v) :
    Yields (if shape.update.isEmpty then pure none else some <$> Lowering.freshTag) s
      (if shape.update.isEmpty then none else some (L.tagAt 3)) (L.reserve shape.tagCount) v := by
  unfold Part.LoopShape.tagCount
  split
  · exact ⟨s, rfl, h⟩
  · have htag := h.freshTag
    rw [reserve_tagAt, reserve_reserve] at htag
    rw [map_eq_pure_bind]
    exact htag.bind fun s₁ h₁ => ⟨s₁, rfl, h₁⟩

/-- The state that tests and the state behind the loop. -/
theorem testStates_draw (shape : Part.LoopShape) (L₀ : Ledger) (h : Building v c s L A c₁) :
    Agrees (fun c' s' r => Building v c s' r.2 r.1 c') ((do
      let testState ← enterState (L₀.tagAt 1)
      match shape.test with
      | some test => do
        emit testState (.cond test [.jump (L₀.tagAt 0)] [])
        emit testState (.jump (L₀.tagAt 2))
      | none => emit testState (.jump (L₀.tagAt 0))
      enterState (L₀.tagAt 2)) s)
      (L.enterAll [L₀.tagAt 1, L₀.tagAt 2] >>=
        fun L' => pure (A ++ ⟨[], [shape.testOps L₀, []]⟩, L')) := by
  have hend : ∀ s₂ L₁ c₂, Building v c s₂ L₁ (A ++ .opened ++ .now (shape.testOps L₀)) c₂ →
      Agrees (fun c' s' r => Building v c s' r.2 r.1 c') (enterState (L₀.tagAt 2) s₂)
        (L₁.enterAll [L₀.tagAt 2] >>= fun L' => pure (A ++ ⟨[], [shape.testOps L₀, []]⟩, L')) := by
    intro s₂ L₁ c₂ h₂
    refine .last ?_
    rw [show L₁.enterAll [L₀.tagAt 2] = L₁.enter (L₀.tagAt 2) from bind_pure _]
    refine h₂.enterState fun c' s' L' _ h' => ?_
    rw [Code.append_assoc, Code.append_assoc] at h'
    rw [← opened_append, ← nil_append [[]], ← mk_append_states]
    exact h'
  show Agrees _ _ ((L.enter (L₀.tagAt 1) >>= fun L₁ => L₁.enterAll [L₀.tagAt 2]) >>= _)
  rw [bind_assoc]
  refine h.enterState fun c₂ s₁ L₁ _ h₁ => ?_
  cases hshape : shape.test with
  | some =>
    refine h₁.emit fun s₂ h₂ => h₂.emit fun s₃ h₃ => hend s₃ L₁ c₂ ?_
    rw [Code.append_assoc] at h₃
    rw [Part.LoopShape.testOps, hshape]
    exact h₃
  | none =>
    refine h₁.emit fun s₂ h₂ => hend s₂ L₁ c₂ ?_
    rw [Part.LoopShape.testOps, hshape]
    exact h₂

theorem loop_draws (hbody : ∀ ctx, Draws (body ctx) (p ctx)) :
    Draws (Part.loop shape loc body ctx) (Sketch.loop shape loc p ctx) := by
  intro v c s L hc h
  refine .step h.freshTag fun s₁ h₁ => .step h₁.freshTag fun s₂ h₂ =>
    .step h₂.freshTag fun s₃ h₃ => ?_
  simp only [reserve_tagAt, reserve_reserve, Nat.add_zero] at h₃ ⊢
  rw [ite_bind]
  refine .step h₃.updateTag fun s₄ h₄ => (Building.start hc h₄).endWith fun s₅ h₅ => ?_
  refine h₅.enterState fun bodyState s₆ L₁ hL₁ h₆ => h₆.emitAll fun s₇ h₇ => .afterGet ?_
  have hagain : (if shape.update.isEmpty then none else some (L.tagAt 3)).getD (L.tagAt 1) =
      shape.again L := by
    rw [Part.LoopShape.again]
    split
    · rfl
    · rfl
  have hdepth : s₇.scopes.length = L.scopes.length := by
    obtain ⟨tags, _, rfl⟩ := enter_ok hL₁
    rw [h₇.looks.scopes_eq]
    rfl
  rw [hagain, hdepth]
  refine h₇.part (withScope_draws (hbody _)) (by simp) fun bodyEnd s₈ code L₂ _ h₈ => ?_
  refine h₈.endWith fun s₉ h₉ => ?_
  rw [sealed_append, show (_ ++ Code.now shape.start).stop (v.ops c) =
    shape.start by simp, sealed_nil] at h₉
  -- the states behind the body
  unfold Part.LoopShape.tailTags Part.LoopShape.tail
  cases hempty : shape.update.isEmpty with
  | true => exact testStates_draw shape L h₉
  | false =>
    show Agrees _ _ ((L₂.enter (L.tagAt 3) >>= fun L₃ => L₃.enterAll [L.tagAt 1, L.tagAt 2]) >>= _)
    rw [bind_assoc]
    refine h₉.enterState fun c₁ s₁₀ L₃ _ h₁₀ => h₁₀.emitAll fun s₁₁ h₁₁ =>
      h₁₁.emit fun s₁₂ h₁₂ => ?_
    have htest := testStates_draw shape L h₁₂
    rw [Code.append_assoc, Code.append_assoc, Code.append_assoc, now_append, now_append,
      opened_append] at htest
    exact htest

theorem testLoop_draws {label : Option String} {testFirst : Bool} {test : Expr}
    (hbody : ∀ ctx, Draws (body ctx) (p ctx)) :
    Draws (Part.testLoop label testFirst test loc body ctx)
      (Sketch.testLoop label testFirst test loc p ctx) :=
  fun _ _ _ _ hc h => (checkNoMarker_reads test).bind fun _ _ => loop_draws hbody hc h

theorem andThen_draws {first second : Cursor → Lower Cursor} {p q : Sketch} (hfirst : Draws first p)
    (hsecond : Draws second q) : Draws (fun cursor => do second (← first cursor))
    (p.andThen q) := by
  intro v c s L hc h
  refine (hfirst hc h).bind fun c₁ s₁ r _ hb => .last ?_
  exact hb.part hsecond rfl fun c₂ s₂ more L' _ hb' => hb'

theorem forLoop_draws {label : Option String} {init : Part} {test : Option Expr}
    {update : List Expr} {q : Context → Sketch} (hinit : ∀ ctx, Draws (init ctx) (q ctx))
    (hbody : ∀ ctx, Draws (body ctx) (p ctx)) :
    Draws (Part.forLoop label init test update loc body ctx)
      (Sketch.forLoop label q test update loc p ctx) :=
  fun _ _ _ _ hc h => (checkOption_reads test).bind fun _ _ =>
    (checkAll_reads update).bind fun _ _ =>
    withScope_draws (andThen_draws (hinit ctx) (loop_draws hbody)) hc h

theorem forEach_draws {label : Option String} {var : LocalDecl} {iterable : Expr}
    (hbody : ∀ ctx, Draws (body ctx) (p ctx)) :
    Draws (Part.forEach label var iterable loc body ctx)
      (Sketch.forEach label var iterable loc p ctx) := by
  intro v c s L hc h
  refine (checkNoMarker_reads iterable).bind fun _ _ => (declared_reads var.name).bind fun x _ => ?_
  refine withScope_draws ?_ hc h
  intro v c s L hc h
  refine .step (h.newField ctx "iter" (TypeRef.iteratorOf var.type) .synthetic) fun s₁ h₁ => ?_
  rw [when_bind]
  refine .step (h₁.dropIfCleared ctx L.nextSymbol (TypeRef.iteratorOf var.type)) fun s₂ h₂ => ?_
  refine (Building.start hc h₂).emit fun s₃ hb =>
    hb.run (hb.looks.captureLocal ctx x var.type) fun s₄ hb => ?_
  refine .afterGet (.last ?_)
  rw [hb.looks.symbols_eq]
  exact hb.part (loop_draws hbody) rfl fun c' s' code L' _ hb' => hb'

/-! ## Labels and locks -/

theorem labeled_draws (hbody : ∀ ctx, Draws (body ctx) (p ctx)) :
    Draws (Part.labeled label body ctx) (Sketch.labeled label p ctx) := by
  intro v c s L hc h
  refine .step h.freshTag fun s₁ h₁ => .afterGet ?_
  rw [h₁.scopes_eq]
  refine (withScope_draws (hbody _) hc h₁).bind fun stop s₂ r _ hb => .last ?_
  exact hb.continueAt fun c' s' L' _ hb' => hb'

theorem synchronized_draws {lock : Expr} {marker : Markers → Option (String × Location)}
    (hbody : Draws (body ctx) (p ctx)) :
    Draws (Part.synchronized lock marker loc body ctx)
      (Sketch.synchronized lock marker loc p ctx) := by
  intro v c s L hc h
  refine (checkNoMarker_reads lock).bind fun _ _ => ?_
  dsimp only
  cases marker ctx.markers with
  | some => rfl
  | none =>
    refine .step h.newScratch fun s₁ h₁ => ?_
    have hrun := withScope_draws hbody v.has_buffer h₁
    rw [View.ops_newBuffer h.tidy] at hrun
    refine hrun.bind fun stop s₂ r _ hb => ?_
    obtain ⟨code, L'⟩ := r
    dsimp only at hb ⊢
    have hstay : stop = .scratch v.buffers ↔ code.states = [] := by
      rw [hb.cursor, Cursor.after_scratch]
    by_cases hstates : code.states = []
    · rw [if_pos (hstay.mpr hstates), if_pos hstates]
      have htake := hb.looks.takeScratch (i := v.buffers) (by simp)
      rw [View.ops_buffer h.tidy, View.closeBuffer_add h.tidy, hstates] at htake
      exact .step htake fun s₃ h₃ => .step (h₃.emit hc _) fun s₄ h₄ => ⟨h.tidy, hc, h₄, rfl⟩
    · rw [if_neg fun h => hstates (hstay.mp h), if_neg hstates]
      rfl

/-! ## Switches -/

theorem Looks.freshTags {α : Type} (cases : List α) (h : Looks s L v) :
    Yields (cases.mapM fun _ => Lowering.freshTag) s ((List.range cases.length).map L.tagAt)
      (L.reserve cases.length) v := by
  induction cases generalizing s L with
  | nil => exact ⟨s, rfl, L.reserve_zero.symm ▸ h⟩
  | cons x cases ih =>
    rw [mapM_cons]
    have htags : (List.range (x :: cases).length).map L.tagAt
        = L.tagAt 0 :: (List.range cases.length).map (L.reserve 1).tagAt := by
      rw [length_cons, range_succ_eq_map, map_cons, map_map]
      exact congrArg _ (map_congr_left fun i _ => by rw [reserve_tagAt, Nat.add_comm]; rfl)
    rw [htags, length_cons, Nat.add_comm, ← reserve_reserve]
    exact h.freshTag.bind fun s₁ h₁ => (ih h₁).bind fun s₂ h₂ => ⟨s₂, rfl, h₂⟩

theorem arms_eq (cases : List SwitchCase) (tags : List Tag) :
    ((lowerCases cases).zip tags).map (fun (c, tag) => SwitchArm.mk c.labels c.isDefault tag)
      = armsOf (cases.zip tags) := by
  induction cases generalizing tags with
  | nil => rfl
  | cons c cases ih =>
    obtain ⟨labels, isDefault, body⟩ := c
    cases tags with
    | nil => rfl
    | cons tag tags => exact congrArg _ (ih tags)

theorem labels_eq (cases : List SwitchCase) :
    (lowerCases cases).flatMap Part.CasePart.labels = cases.flatMap SwitchCase.labels := by
  induction cases with
  | nil => rfl
  | cons c cases ih =>
    obtain ⟨labels, isDefault, body⟩ := c
    rw [lowerCases, flatMap_cons, flatMap_cons, ih]
    rfl

theorem length_lowerCases (cases : List SwitchCase) : (lowerCases cases).length = cases.length := by
  induction cases with
  | nil => rfl
  | cons c cases ih =>
    obtain ⟨labels, isDefault, body⟩ := c
    rw [lowerCases, length_cons, length_cons, ih]

/-- The tags of a switch: the one behind it, and one for each case. -/
theorem Looks.caseTags (cases : List SwitchCase) (h : Looks s (L.reserve 1) v) :
    Yields ((lowerCases cases).mapM fun _ => Lowering.freshTag) s (L.caseTags cases.length)
      (L.reserve (cases.length + 1)) v := by
  have htags := h.freshTags (lowerCases cases)
  rw [length_lowerCases, reserve_reserve, Nat.add_comm] at htags
  rw [show L.caseTags cases.length = (List.range cases.length).map (L.reserve 1).tagAt from
    map_congr_left fun i _ => by rw [reserve_tagAt, Nat.add_comm]]
  exact htags

theorem caseStates_draw {endTag : Tag} {tags : List Tag} (cur : List Op)
    (hcases : ∀ c ∈ cases, Draws (lowerAll c.body ctx) (sketchAll c.body ctx))
    (h : Building v c s L A c₁) :
    Agrees (fun _ s' r => ∃ c', Building v c s' r.2 (A ++ r.1) c')
      (Part.caseStates ctx endTag ((lowerCases cases).zip tags) s)
      (Sketch.caseStates ctx endTag ((sketchCases cases).zip tags) cur L) := by
  induction cases generalizing tags s L A c₁ cur with
  | nil => exact ⟨c₁, (Code.append_nil A).symm ▸ h⟩
  | cons case cases ih =>
    obtain ⟨labels, isDefault, body⟩ := case
    cases tags with
    | nil => exact ⟨c₁, (Code.append_nil A).symm ▸ h⟩
    | cons tag tags =>
      have hnext : ((lowerCases cases).zip tags).head?.map Prod.snd
          = ((sketchCases cases).zip tags).head?.map Prod.snd := by
        cases cases with
        | nil => rfl
        | cons c cases =>
          obtain ⟨labels, isDefault, body⟩ := c
          cases tags <;> rfl
      rw [lowerCases, zip_cons_cons, Part.caseStates, hnext]
      refine h.enterState fun c₂ s₁ L₁ _ h₁ => ?_
      refine h₁.part (hcases _ mem_cons_self) (by simp) fun stop s₂ code L₂ _ h₂ =>
      h₂.endWith fun s₃ h₃ => .last ?_
      rw [sealed_append, stop_append, stop_opened] at h₃
      refine (ih _ (fun c hc => hcases c (mem_cons_of_mem _ hc)) h₃).bind fun _ s₄ r _ hrest => ?_
      obtain ⟨c', h'⟩ := hrest
      rw [Code.append_assoc, Code.append_assoc, ← Code.append_assoc .opened] at h'
      exact ⟨c', h'⟩

theorem switch_draws {selector : Expr}
    (hcases : ∀ ctx, ∀ c ∈ cases, Draws (lowerAll c.body ctx) (sketchAll c.body ctx)) :
    Draws (Part.switch selector loc (lowerCases cases) ctx)
      (Sketch.switch selector loc (sketchCases cases) ctx) := by
  intro v c s L hc h
  refine (checkNoMarker_reads selector).bind fun _ _ => ?_
  rw [labels_eq, map_fst_sketchCases]
  refine (checkAll_reads _).bind fun _ _ => withScope_draws ?_ hc h
  intro v c s L hc h
  simp only [Sketch.choice, map_fst_sketchCases, length_sketchCases]
  refine .step h.freshTag fun s₁ h₁ => .step (h₁.caseTags cases) fun s₂ h₂ => ?_
  rw [arms_eq]
  refine (Building.start hc h₂).emit fun s₃ h₃ => ?_
  rw [when_bind]
  have hchoose : Yields
      (if (!(armsOf (cases.zip (L.caseTags cases.length))).any SwitchArm.isDefault) = true
      then emit c (.jump (L.tagAt 0)) else pure ()) s₃ () (L.reserve (cases.length + 1))
      (v.add c (.now (chooseOps selector (armsOf (cases.zip (L.caseTags cases.length)))
        (L.tagAt 0)))) := by
    unfold chooseOps
    split
    · next hdefault =>
      rw [if_neg (by simpa using hdefault)]
      obtain ⟨s₄, hjump, h₄⟩ := h₃.looks.emit h₃.has_stop (.jump (L.tagAt 0))
      exact ⟨s₄, hjump, (h₃.put h₄).looks⟩
    · next hdefault =>
      rw [if_pos (by simpa using hdefault)]
      exact ⟨s₃, rfl, h₃.looks⟩
  refine .step hchoose fun s₄ h₄ => .afterGet ?_
  have hb : Building v c s₄ _
      (.now (chooseOps selector (armsOf (cases.zip (L.caseTags cases.length)))
      (L.tagAt 0))) c :=
    ⟨h.tidy, hc, h₄, rfl⟩
  rw [h₄.scopes_eq]
  refine (caseStates_draw _ (hcases _) hb).bind fun _ s₅ r _ hstates => .last ?_
  obtain ⟨c₁, h₅⟩ := hstates
  exact h₅.enterState fun c' s' L' _ h' => h'

/-! ## Guards -/

theorem handlers_draw (cur : List Op)
    (hcatches : ∀ c ∈ catches, Draws (lowerAll c.body ctx) (sketchAll c.body ctx))
    (h : Building v c s L A c₁) :
    Agrees (fun hs s' r => hs = r.1 ∧ ∃ c', Building v c s' r.2.2 (A ++ r.2.1) c')
      (Part.handlers ctx (lowerCatches catches) s)
        (Sketch.handlers ctx (sketchCatches catches) cur L) := by
  induction catches generalizing s L A c₁ cur with
  | nil => exact ⟨rfl, c₁, (Code.append_nil A).symm ▸ h⟩
  | cons clause catches ih =>
    obtain ⟨param, types, body⟩ := clause
    refine (declared_reads param).bind fun x _ => h.run h.looks.freshTag fun s₁ h₁ => ?_
    refine h₁.enterState fun c₂ s₂ L₁ _ h₂ => ?_
    refine h₂.part (withScope_draws ?_) (by simp) fun stop s₃ code L₂ _ h₃ =>
      h₃.endWith fun s₄ h₄ => ?_
    · exact fun v c s L hc h => .step (h.captureLocal ctx x _) fun s₁ h₁ =>
        hcatches _ mem_cons_self hc h₁
    rw [sealed_append, stop_append, stop_opened] at h₄
    refine (ih _ (fun c hc => hcatches c (mem_cons_of_mem _ hc)) h₄).bind fun hs s₅ r _ hrest => ?_
    obtain ⟨rfl, c', h'⟩ := hrest
    rw [Code.append_assoc, Code.append_assoc, ← Code.append_assoc .opened] at h'
    exact ⟨rfl, c', h'⟩

theorem Looks.emitInits (resources : List (SymbolId × Option Expr)) (h : Looks s L v)
    (hc : v.Has c) :
    Yields (resources.forM fun (x, init) => init.forM fun e => Lowering.emit c
      (.assign x e) : Lower Unit) s () L
      (v.put c (initOps resources)) := by
  induction resources generalizing s v with
  | nil => exact ⟨s, rfl, (v.put_nil c).symm ▸ h⟩
  | cons r resources ih =>
    refine (h.emitOption hc r.1 r.2).bind fun s₁ h₁ => ?_
    have hrest := ih h₁ hc
    rw [View.put_put] at hrest
    exact hrest

theorem guardedBody_draw {body : List Stmt} (hbody : Draws (lowerAll body ctx) (sketchAll body ctx))
    (hcatches : ∀ c ∈ catches, Draws (lowerAll c.body ctx) (sketchAll c.body ctx))
    (hstart : v.Has (.state .start)) (h : Looks s L v) :
    Agrees (fun hs s' r => hs = r.1 ∧ ∃ c', Building v (.state .start) s' r.2.2 r.2.1 c')
      (Part.guardedBody ctx resources (lowerAll body) (lowerCatches catches) s)
      (Sketch.guardedBody ctx resources (sketchAll body) (sketchCatches catches)
        (v.ops (.state .start)) L) := by
  have hopening : Draws (fun cursor => do
      resources.forM fun (x, init) => init.forM fun e => emit cursor (.assign x e)
      Part.inScope (lowerAll body) ctx cursor)
        (Sketch.opening resources (Sketch.scope (sketchAll body ctx))) := by
    intro v c s L hc h
    refine .step (h.emitInits resources hc) fun s₁ h₁ => .last ?_
    have hb : Building v c s₁ L (.now (initOps resources)) c := ⟨h.tidy, hc, h₁, rfl⟩
    exact hb.part (withScope_draws hbody) rfl fun c' s' code L' _ hb' => hb'
  refine (withScope_draws hopening hstart h).bind fun stop s₁ r _ h₁ =>
    h₁.endWith fun s₂ h₂ => .last ?_
  exact (handlers_draw _ hcatches h₂).bind fun hs s₃ r _ hrest => hrest

/-- The view of a machine of which nothing is built yet. -/
def View.new (around : List Frame) : View := ⟨1, 0, fun _ => [], True, around⟩

theorem view_new (id : MachineId) (selector : SymbolId) (pendingJump : Option SymbolId)
    (scopeBase : Nat) (hs : s.frame = .new id selector pendingJump scopeBase) :
    s.view = .new s.outers := by
  simp only [State.view, hs]
  ext1
  · rfl
  · rfl
  · funext d
    cases d with
    | state d =>
      obtain ⟨_ | _ | n⟩ := d
      · rfl
      · rfl
      · rfl
    | scratch => rfl
  · exact eq_true (Block.new_numbered id selector)
  · rfl

/-- A frame is put on the stack. -/
theorem Looks.nest (h : Looks s L v) (id : MachineId) (g : Ledger.GuardNames) :
    Looks { s with
        frame := .new id g.selector (some g.pendingJump) s.scopes.length
        outers := s.frame :: s.outers } (L.nest id g) (.new (s.frame :: s.outers)) := by
  obtain ⟨rfl, rfl⟩ := h
  exact ⟨rfl, view_new _ _ _ _ rfl⟩

/-- A frame is taken from the stack, which is never empty where a view shows a frame around. -/
theorem Looks.popFrame {outer : Frame} {outers : List Frame} (h : Looks s L v)
    (hv : v.around = outer :: outers) :
    Lowering.popFrame s = .ok (s.frame, { s with frame := outer, outers }) := by
  have houters : s.outers = outer :: outers := by
    rw [← hv, ← h.view]
    rfl
  cases s
  cases houters
  rfl

theorem Looks.unnest {s₁ : State} {L' : Ledger} (h : Looks s L v) (h₁ : s₁.ledger = L') :
    Looks { s₁ with frame := s.frame, outers := s.outers } (L'.unnest L) v := by
  obtain ⟨rfl, rfl⟩ := h
  subst h₁
  exact ⟨rfl, rfl⟩

theorem View.ops_grow_new (hv : v.Tidy) (ss : List (List Op)) (i : Nat) :
    (v.grow ss).ops (.state ⟨v.size + 1 + i⟩) = ss[i]?.getD [] := by
  induction ss generalizing v i with
  | nil => exact hv _ fun h => absurd h.2 (by show ¬ v.size + 1 + i ≤ v.size; omega)
  | cons s ss ih =>
    cases i with
    | zero =>
      have hnew : v.openState.ops (.state ⟨v.size + 1⟩) = [] := hv _ fun h => h.ne_new rfl
      have hhas : (v.openState.put (.state ⟨v.size + 1⟩) s).Has (.state ⟨v.size + 1⟩) := v.has_new
      rw [View.grow, Nat.add_zero, View.ops_grow _ hhas, View.ops_put_self, hnew]
      rfl
    | succ i =>
      have h := ih (hv.openState.put v.has_new s) i
      rw [getElem?_cons_succ, ← h, View.grow,
        show v.size + 1 + (i + 1) = (v.openState.put (.state ⟨v.size + 1⟩) s).size + 1 + i from
          (Nat.add_right_comm (v.size + 1) 1 i).symm ▸ rfl]

theorem View.new_tidy (around : List Frame) : (View.new around).Tidy := fun _ _ => rfl

theorem View.has_start (around : List Frame) : (View.new around).Has (.state .start) :=
  ⟨Nat.one_pos, Nat.le_refl 1⟩

/-- The ops of each state of a machine that consists of some code. -/
theorem View.ops_new_add (around : List Frame) (code : Code) (i : Nat) :
    ((View.new around).add (.state .start) code).ops (.state ⟨i + 1⟩)
      = (code.ops :: code.states)[i]?.getD [] := by
  have hstart : ((View.new around).put (.state .start) code.ops).Has (.state .start) :=
    View.has_start around
  cases i with
  | zero =>
    rw [View.add]
    exact (View.ops_grow _ hstart _).trans (View.ops_put_self ..)
  | succ i =>
    rw [View.add, getElem?_cons_succ,
      ← View.ops_grow_new ((View.new_tidy around).put (View.has_start around) code.ops)
        code.states i]
    congr 3
    show i + 1 + 1 = 1 + 1 + i
    omega

/-- The machine that a frame is, once its code is built. -/
theorem Building.finish_eq {around : List Frame} {c' : Cursor}
    (h : Building (.new around) (.state .start) s L code c') :
    s.frame.block.finish = code.machine L.machine L.selector := by
  obtain ⟨_, _, ⟨rfl, hview⟩, _⟩ := h
  have hnum : s.frame.block.Numbered := by
    have h := congrArg View.ordered hview
    rw [View.add, (View.grow_same ..).2.1] at h
    exact of_eq_true h
  have hstates : s.frame.block.states.toList = numbered 1 (code.ops :: code.states) := by
    refine ext_getElem? fun i => ?_
    rw [getElem?_numbered, Array.getElem?_toList]
    have hops : opsAt s.frame (.state ⟨i + 1⟩) = (code.ops :: code.states)[i]?.getD [] := by
      rw [← View.ops_new_add around, ← hview]
      rfl
    have hsize : s.frame.block.states.size = (code.ops :: code.states).length := by
      have h := congrArg View.size hview
      rw [View.add_size] at h
      exact h.trans (Nat.add_comm ..)
    cases hstate : s.frame.block.states[i]? with
    | none =>
      rw [Array.getElem?_eq_none_iff, hsize] at hstate
      rw [getElem?_eq_none hstate]
      rfl
    | some state =>
      have hi := (Array.getElem?_eq_some_iff.mp hstate).1
      rw [hsize] at hi
      rw [getElem?_eq_getElem hi] at hops ⊢
      have hid := hnum i state hstate
      have hstateOps : state.ops = (code.ops :: code.states)[i] := by
        rw [← Option.getD_some (a := (code.ops :: code.states)[i]), ← hops]
        show state.ops = ((s.frame.block.states[i]?).map MachineState.ops).getD []
        rw [hstate]
        rfl
      obtain ⟨id, ops⟩ := state
      rw [Option.map_some, ← hstateOps, Nat.add_comm 1 i]
      exact congrArg (fun id => some (MachineState.mk id ops)) hid
  rw [Block.finish, hstates]
  rfl

theorem resources_draw (resources : List LocalDecl) (h : Looks s L v) :
    Agrees (fun xs s' ys => xs = ys ∧
      Looks s' (L.captureResources (ys.zip (resources.map LocalDecl.type))) v)
      ((resources.mapM fun (d : LocalDecl) => do
        let symbol ← declared d.name
        capture symbol d.type .localVar .retained
        return symbol : Lower (List SymbolId)) s)
          (Sketch.symbolsOf (resources.map LocalDecl.name)) := by
  induction resources generalizing s L with
  | nil => exact ⟨rfl, h⟩
  | cons d resources ih =>
    rw [mapM_cons, bind_assoc]
    refine (declared_reads d.name).bind fun x _ => ?_
    rw [bind_assoc]
    refine .step (h.capture x d.type .localVar .retained) fun s₁ h₁ => ?_
    rw [pure_bind]
    refine (ih h₁).bind fun xs s₂ ys _ hrest => ?_
    obtain ⟨rfl, h₂⟩ := hrest
    exact ⟨rfl, h₂⟩

theorem dispatchExits_draw {field : SymbolId} {exits : List Tag} (h : Building v c s L A c₁) :
    Agrees (fun _ s' r => Building v c s' r.2 (A ++ .now r.1) c₁)
      (Part.dispatchExits ctx field c₁ exits s)
      (L.routeAll ctx field exits) := by
  induction exits generalizing s L A with
  | nil =>
    show Building v c s L (A ++ .now []) c₁
    rwa [Code.append_nil]
  | cons tag exits ih =>
    unfold Part.dispatchExits
    rw [forM_eq_forM, forM_cons]
    simp only [bind_assoc]
    refine (h.looks.transferOps ctx tag).bind fun ops s₁ r _ hs => .afterGet ?_
    obtain ⟨rfl, h₁⟩ := hs
    rw [h₁.symbols_eq]
    refine (h.step h₁).emit fun s₂ h₂ => .last ?_
    refine (ih h₂).bind fun _ s₃ q _ h₃ => ?_
    rw [Code.append_assoc] at h₃
    exact h₃

/-- Final code draws its sketch, if there is any. -/
def FinalDraws (ctx : Context) : Option Part → Option (Context → Sketch) → Prop
  | some part, some p => Draws (part ctx) (p ctx)
  | none, none => True
  | _, _ => False

/-- A nested machine that is drawn in place of the frame at hand. -/
theorem withFrame_draw (g : Ledger.GuardNames) {id : MachineId} {body : List Stmt}
    (hbody : Draws (lowerAll body ctx) (sketchAll body ctx))
    (hcatches : ∀ c ∈ catches, Draws (lowerAll c.body ctx) (sketchAll c.body ctx))
    (h : Looks s L v) :
    Agrees (fun q s' r => q.1 = r.1 ∧ q.2.block.finish = r.2.1.machine id g.selector ∧
      q.2.exits = r.2.2.exits ∧
        Looks s' (r.2.2.unnest L) v)
      (Part.withFrame (.new id g.selector (some g.pendingJump) s.scopes.length)
        (Part.guardedBody ctx resources (lowerAll body) (lowerCatches catches)) s)
      (Sketch.guardedBody ctx resources (sketchAll body) (sketchCatches catches) []
        (L.nest id g)) := by
  refine .afterModify ?_
  rw [← bind_pure (Sketch.guardedBody ..)]
  refine (guardedBody_draw hbody hcatches (View.has_start _) (h.nest id g)).bind
    fun hs s₁ r hrun hinner => ?_
  obtain ⟨hs, inner, Lin⟩ := r
  obtain ⟨rfl, c', hb⟩ := hinner
  -- the frame that was put on the stack is still its top
  have hpop := hb.looks.popFrame (View.grow_same ..).2.2
  show Agrees _ (popFrame s₁ >>= fun r => _) _
  rw [hpop]
  have hgrows := (guardedBody_made (sketchAll_made body ctx)
      (sketchCatches_made catches ctx) hrun).grows
  refine ⟨rfl, ?_, congrArg Ledger.exits hb.looks.ledger, h.unnest hb.looks.ledger⟩
  rw [hb.finish_eq, hgrows.machine, hgrows.selector]
  rfl

/-- What ends final code, and the state behind it. -/
theorem settle_draw (g : Ledger.GuardNames) {exits : List Tag} {endTag : Tag}
    (h : Building v c s L (A ++ .opened ++ code) c₁) :
    Agrees (fun c' s' r => Building v c s' r.2 r.1 c') ((do
      if !(← isTerminal c₁) then
        emit c₁ (.rethrow g.pending)
        Part.dispatchExits ctx g.pendingJump c₁ exits
      continueAt c₁ endTag) s)
      (settleOps L ctx (code.stop []) g exits >>= fun r => r.2.enter endTag >>= fun L' =>
        pure (A ++ .opened ++ Code.sealed [] (code ++ .now r.1) (.jump endTag) ++
          .opened, L')) := by
  have hend : ∀ s₁ ops L₁, Building v c s₁ L₁ (A ++ .opened ++ code ++ .now ops) c₁ →
      Agrees (fun c' s' r => Building v c s' r.2 r.1 c') (continueAt c₁ endTag s₁)
        (L₁.enter endTag >>= fun L' =>
        pure (A ++ .opened ++ Code.sealed [] (code ++ .now ops) (.jump endTag) ++
          .opened, L')) := by
    refine fun s₁ ops L₁ h₁ => .last (h₁.continueAt fun c' s' L' _ hb => ?_)
    rw [Code.append_assoc _ code, sealed_append, stop_append, stop_opened] at hb
    exact hb
  refine h.isTerminal fun s₁ h₁ => ?_
  rw [stop_append, stop_append, stop_opened]
  unfold settleOps
  cases endsTerminal (code.stop []) with
  | true => exact hend s₁ [] L ((Code.append_nil _).symm ▸ h₁)
  | false =>
    show Agrees _ _ ((L.routeAll ctx g.pendingJump exits >>= _) >>= _)
    rw [bind_assoc]
    refine h₁.emit fun s₂ h₂ => (dispatchExits_draw h₂).bind fun _ s₃ r _ h₃ => ?_
    rw [Code.append_assoc] at h₃
    exact hend s₃ _ _ h₃

theorem tryCatch_draws {resources : List LocalDecl} {body : List Stmt} {final : Option Part}
    {finalSketch : Option (Context → Sketch)}
    (hbody : Draws (lowerAll body ctx) (sketchAll body ctx))
    (hcatches : ∀ c ∈ catches, Draws (lowerAll c.body ctx) (sketchAll c.body ctx))
    (hfinal : FinalDraws ctx final finalSketch) :
    Draws (Part.tryCatch resources (lowerAll body) (lowerCatches catches) final loc ctx)
      (Sketch.tryCatch resources (sketchAll body) (sketchCatches catches) finalSketch loc ctx) := by
  intro v c s L hc h
  refine (checkInits_reads resources).bind fun _ _ => .afterGet (.afterModify ?_)
  -- the fields of the guard
  have hnext : s.nextMachine = L.nextMachine := by rw [← h.ledger]; rfl
  have h₁ : Looks { s with nextMachine := s.nextMachine + 1 }
      { L with nextMachine := L.nextMachine + 1 } v := by
    obtain ⟨rfl, rfl⟩ := h
    exact ⟨rfl, rfl⟩
  refine .step (h₁.newField ctx "selector" .int .selector) fun s₂ h₂ => ?_
  refine .step (h₂.newField ctx "handling" .boolean .synthetic) fun s₃ h₃ => ?_
  refine .step (h₃.newSymbol "pending" .throwable) fun s₄ h₄ =>
    .step (h₄.capture _ _ _ _) fun s₅ h₅ => ?_
  refine .step (h₅.newField ctx "pendingJump" .int .synthetic) fun s₆ h₆ => ?_
  refine (resources_draw resources h₆).bind fun xs s₇ ys _ hresources => ?_
  obtain ⟨rfl, h₇⟩ := hresources
  replace h₇ : Looks s₇ (L.declareGuard ctx (xs.zip (resources.map LocalDecl.type))) v := h₇
  rw [hnext]
  -- the ops that enter the guard
  simp only [nextSymbol_newField, nextSymbol_capture, nextSymbol_newSymbol, size_symbols_newField]
  refine (Building.start hc h₇).emit fun s₈ hb => hb.emit fun s₉ hb => hb.emit fun s₁₀ hb =>
    hb.emit fun s₁₁ hb => ?_
  refine hb.emitAll fun s₁₂ hb => ?_
  replace hb : Building v c s₁₂ _ (.now (L.guardNames.reset xs)) c := hb
  refine hb.run hb.looks.freshTag fun s₁₃ hb => hb.run hb.looks.freshTag fun s₁₄ hb => ?_
  refine hb.run hb.looks.freshTag fun s₁₅ hb => ?_
  simp only [reserve_tagAt, reserve_reserve, tagAt_declareGuard] at hb ⊢
  refine hb.continueAt fun guardState s₁₆ L₂ _ hb => .afterGet ?_
  rw [sealed_now _ (L.guardNames.reset_ne_nil xs) (L.guardNames.endsTerminal_reset xs)] at hb
  -- the nested machine
  refine (withFrame_draw L.guardNames hbody hcatches hb.looks).bind fun q s₁₇ r _ hframe => ?_
  obtain ⟨hs, frame⟩ := q
  obtain ⟨hs', inner, Lin⟩ := r
  obtain ⟨rfl, hmachine, hexits, h₁₇⟩ := hframe
  dsimp only at hmachine hexits h₁₇ ⊢
  rw [hmachine, hexits]
  refine (hb.step h₁₇).emit fun s₁₈ hb => hb.emit fun s₁₉ hb => ?_
  rw [Code.append_assoc _ (.now [_]) (.now [_])] at hb
  -- the final code
  refine hb.enterState fun finalState s₂₀ L₃ _ hb => ?_
  match final, finalSketch, hfinal with
  | none, none, _ => exact settle_draw L.guardNames ((Code.append_nil _).symm ▸ hb)
  | some part, some p, hpart =>
    exact hb.part (withScope_draws hpart) (by simp) fun _ _ _ _ _ hb => settle_draw L.guardNames hb

/-- A labelled statement is lowered as a loop, or as a statement that is none. -/
theorem lower_labeled {st : Stmt} :
    (Stmt.labeled label st loc).lower = Part.unlessPlain (.labeled label st loc) fun ctx cursor =>
      Part.checkLabel ctx label loc >>= fun _ =>
        if st.isLoop then st.lowerLoop label ctx cursor
          else Part.labeled label st.lower ctx cursor :=
  rfl

/-- A labelled statement, once its label is known to be new. -/
theorem checked_draws {p : Sketch} (h : Draws step p) :
    Draws (fun cursor => Part.checkLabel ctx label loc >>= fun _ => step cursor)
      (fun cur L => Sketch.checkLabel ctx label loc >>= fun _ => p cur L) :=
  fun _ _ _ _ hc hs => (checkLabel_reads label).bind fun _ _ => h hc hs

end Parts

mutual

/-- **Lowering a statement draws its sketch.** -/
theorem lower_draws : ∀ (st : Stmt) (ctx : Context), Draws (st.lower ctx) (st.sketch ctx)
  | .empty loc, ctx => unlessPlain_draws fun _ _ _ _ hc h => Building.start hc h
  | .expr e loc, ctx => expr_draws e
  | .declare d loc, ctx => declare_draws d
  | .block body loc, ctx => unlessPlain_draws (withScope_draws (lowerAll_draws body ctx))
  | .cond test yes no loc, ctx =>
    unlessPlain_draws (cond_draws (lower_draws yes ctx) (lowerElse_draws no ctx))
  | .whileLoop test body loc, ctx => unlessPlain_draws (testLoop_draws (lower_draws body))
  | .doWhile body test loc, ctx => unlessPlain_draws (testLoop_draws (lower_draws body))
  | .forLoop init test update body loc, ctx =>
    unlessPlain_draws (forLoop_draws (lowerAll_draws init) (lower_draws body))
  | .forEach var iterable body loc, ctx => unlessPlain_draws (forEach_draws (lower_draws body))
  | .switch selector cases loc, ctx => unlessPlain_draws (switch_draws (lowerCases_draws cases))
  | .tryCatch resources body catches final loc, ctx =>
    unlessPlain_draws (tryCatch_draws (lowerAll_draws body ctx) (lowerCatches_draws catches ctx)
      (lowerFinal_draws final ctx))
  | .labeled label body loc, ctx => by
    by_cases hloop : body.isLoop
    · simp only [lower_labeled, if_pos hloop, Stmt.sketch_labeledLoop hloop]
      exact unlessPlain_draws (checked_draws (lowerLoop_draws body label ctx))
    · simp only [lower_labeled, if_neg hloop, Stmt.sketch_labeled (Bool.not_eq_true _ ▸ hloop)]
      exact unlessPlain_draws (checked_draws (labeled_draws (lower_draws body)))
  | .synchronized lock body loc, ctx =>
    unlessPlain_draws (synchronized_draws (lowerAll_draws body ctx))
  | .ret value loc, ctx => ret_draws value
  | .brk label loc, ctx => brk_draws label
  | .cont label loc, ctx => cont_draws label
  | .raise e loc, ctx => raise_draws e

theorem lowerLoop_draws : ∀ (st : Stmt) (label : String) (ctx : Context),
    Draws (st.lowerLoop label ctx) (st.rounds (some label) ctx)
  | .whileLoop _ body _, _, _ | .doWhile body _ _, _, _ => testLoop_draws (lower_draws body)
  | .forLoop init _ _ body _, _, _ => forLoop_draws (lowerAll_draws init) (lower_draws body)
  | .forEach _ _ body _, _, _ => forEach_draws (lower_draws body)
  | .empty _, _, _ | .expr .., _, _ | .declare .., _, _ | .block .., _, _ | .cond .., _, _
  | .switch .., _, _ | .tryCatch .., _, _ | .labeled .., _, _ | .synchronized .., _, _
  | .ret .., _, _ | .brk .., _, _ | .cont .., _, _ | .raise .., _, _ => fun _ _ _ _ _ _ => rfl

theorem lowerAll_draws : ∀ (ss : List Stmt) (ctx : Context),
    Draws (lowerAll ss ctx) (sketchAll ss ctx)
  | [], _ => fun _ _ _ _ hc h => Building.start hc h
  | st :: ss, ctx => andThen_draws (lower_draws st ctx) (lowerAll_draws ss ctx)

theorem lowerElse_draws : ∀ (no : Option Stmt) (ctx : Context),
    BranchDraws ctx (lowerElse no) (sketchElse no)
  | none, _ => noBranch_draws
  | some st, ctx => branch_draws (lower_draws st ctx)

theorem lowerFinal_draws : ∀ (final : Option (List Stmt)) (ctx : Context),
    FinalDraws ctx (lowerFinal final) (sketchFinal final)
  | none, _ => trivial
  | some body, ctx => lowerAll_draws body ctx

theorem lowerCases_draws : ∀ (cases : List SwitchCase) (ctx : Context), ∀ c ∈ cases,
    Draws (lowerAll c.body ctx) (sketchAll c.body ctx)
  | [], _, _, hc => absurd hc not_mem_nil
  | .mk labels isDefault body :: cases, ctx, c, hc => by
    rcases mem_cons.mp hc with rfl | hc
    · exact lowerAll_draws body ctx
    · exact lowerCases_draws cases ctx c hc

theorem lowerCatches_draws : ∀ (catches : List CatchClause) (ctx : Context), ∀ c ∈ catches,
    Draws (lowerAll c.body ctx) (sketchAll c.body ctx)
  | [], _, _, hc => absurd hc not_mem_nil
  | .mk param types body :: catches, ctx, c, hc => by
    rcases mem_cons.mp hc with rfl | hc
    · exact lowerAll_draws body ctx
    · exact lowerCatches_draws catches ctx c hc

end

/-! ## Procedures -/

namespace Ledger

/-- What is known before a procedure is lowered: the selector of the root machine. -/
def initial (symbols : SymbolTable) : Ledger := (State.initial symbols).ledger

/-- With parameters as fields. -/
def captureParams (L : Ledger) : List (SymbolId × TypeRef) → Ledger
  | [] => L
  | (x, type) :: rest => (L.capture x type .parameter .retained).captureParams rest

theorem captureParams_grows (L : Ledger) (params : List (SymbolId × TypeRef)) :
    L.Grows (L.captureParams params) := by
  induction params generalizing L with
  | nil => exact .refl L
  | cons x params ih => exact (L.capture_grows x.1 x.2 _ _).trans (ih _)

theorem captureParams_eq (L : Ledger) (params : List (SymbolId × TypeRef)) :
    ∃ captures, L.captureParams params = { L with captures := captures } := by
  induction params generalizing L with
  | nil => exact ⟨_, rfl⟩
  | cons x params ih =>
    obtain ⟨captures, h⟩ := ih (L.capture x.1 x.2 .parameter .retained)
    exact ⟨captures, h⟩

end Ledger

/-- The sketch of a procedure: its parameters become fields, and its statements code. -/
def Sketch.procedure (ctx : Context) (q : Procedure) (symbols : SymbolTable) :
    Except LoweringError (Code × Ledger) := do
  let xs ← Sketch.symbolsOf (q.params.map Param.name)
  Sketch.scope (sketchAll q.body ctx) []
    ((Ledger.initial symbols).captureParams (xs.zip (q.params.map Param.type)))

theorem params_draw (params : List Param) {s : State} {L : Ledger} {v : View} (h : Looks s L v) :
    Agrees (fun _ s' xs => Looks s' (L.captureParams (xs.zip (params.map Param.type))) v)
      ((params.forM fun x => do
        capture (← declared x.name) x.type .parameter .retained : Lower Unit) s)
      (Sketch.symbolsOf (params.map Param.name)) := by
  induction params generalizing s L with
  | nil => exact h
  | cons x params ih =>
    rw [forM_eq_forM, forM_cons, bind_assoc]
    refine (declared_reads x.name).bind fun symbol _ => ?_
    refine .step (h.capture symbol x.type .parameter .retained) fun s₁ h₁ => .last ?_
    exact (ih h₁).bind fun _ s₂ xs _ h₂ => h₂

theorem State.initial_looks (symbols : SymbolTable) :
    Looks (State.initial symbols) (.initial symbols) (.new []) :=
  ⟨rfl, view_new _ _ _ _ rfl⟩

theorem procedure_draw (ctx : Context) (q : Procedure) (symbols : SymbolTable) :
    Agrees (fun _ s r => ∃ c, Building (.new []) (.state .start) s r.2 (r.1.sealed [] .finish) c)
      (procedure ctx q (.initial symbols)) (Sketch.procedure ctx q symbols) := by
  refine (params_draw q.params (State.initial_looks symbols)).bind fun _ s₁ xs _ h₁ => ?_
  rw [← bind_pure (Sketch.scope _ _ _)]
  refine (withScope_draws (lowerAll_draws q.body ctx) (View.has_start _) h₁).bind
    fun stop s₂ r _ hb => .last ?_
  exact hb.endWith fun s₃ hb => ⟨stop, hb⟩

theorem procedure_made {ctx : Context} {q : Procedure} {symbols : SymbolTable} {code : Code}
    {L : Ledger} (h : Sketch.procedure ctx q symbols = .ok (code, L)) :
    ∃ xs : List SymbolId, q.params.map (fun x => x.name.symbol) = xs.map some ∧
      Made ctx ((Ledger.initial symbols).captureParams (xs.zip (q.params.map Param.type))) []
        (.scope (.stmts q.body)) code L := by
  obtain ⟨xs, hxs, hrun⟩ := exists_of_bind_ok h
  have hsymbols := symbolsOf_ok hxs
  rw [map_map] at hsymbols
  exact ⟨xs, hsymbols, scope_made (sketchAll_made q.body ctx) hrun⟩

/-- The code of a procedure, finished. -/
def Code.body (code : Code) (L : Ledger) (symbols : SymbolTable) : LoweredBody :=
  ⟨(code.sealed [] .finish).machine .root (Ledger.initial symbols).selector, L.tags,
    L.captures, L.symbols⟩

end Lowering

open Lowering

/-- The context in which the statements of a procedure are lowered. -/
def Procedure.context (p : Procedure) (settings : Settings) : Context :=
  ⟨settings, p.elementType?.getD settings.fallbackElementType, []⟩

/-- **Lowering a procedure is its sketch**, and the checks behind it. -/
theorem Procedure.lower_eq (p : Procedure) (settings : Settings) :
    p.lower settings = (Sketch.procedure (p.context settings) p.resolve.1 p.resolve.2 >>= fun r =>
      p.resolve.1.assemble (p.context settings).elementType
        (r.1.body r.2 p.resolve.2) settings) := by
  have hdraw := procedure_draw (p.context settings) p.resolve.1 p.resolve.2
  show ((procedure (p.context settings) p.resolve.1 (.initial p.resolve.2) >>= _) >>= _) = _
  cases hsketch : Sketch.procedure (p.context settings) p.resolve.1 p.resolve.2 with
  | error =>
    rw [hsketch] at hdraw
    cases hrun : procedure (p.context settings) p.resolve.1 (.initial p.resolve.2) with
    | error =>
      rw [hrun] at hdraw
      exact congrArg Except.error hdraw
    | ok =>
      rw [hrun] at hdraw
      exact hdraw.elim
  | ok r =>
    obtain ⟨code, L⟩ := r
    rw [hsketch] at hdraw
    cases hrun : procedure (p.context settings) p.resolve.1 (.initial p.resolve.2) with
    | error =>
      rw [hrun] at hdraw
      exact hdraw.elim
    | ok r =>
      obtain ⟨_, s⟩ := r
      rw [hrun] at hdraw
      obtain ⟨c, hb⟩ := hdraw
      obtain ⟨xs, -, hmade⟩ := procedure_made hsketch
      have hgrows := (Ledger.captureParams_grows _ _).trans hmade.grows
      have hbody : (⟨s.frame.block.finish, s.tags, s.captures, s.symbols⟩ : LoweredBody) =
          code.body L p.resolve.2 := by
        obtain rfl : s.ledger = L := hb.looks.ledger
        rw [hb.finish_eq, hgrows.machine, hgrows.selector]
        rfl
      -- the tags are looked at twice
      show ((s.tags.verify >>= _) >>= _) = p.resolve.1.assemble _ (code.body L p.resolve.2) settings
      rw [← hbody]
      show ((s.tags.verify >>= fun _ => _) >>= _) = (s.tags.verify >>= fun _ => _)
      cases hverify : s.tags.verify with
      | error => rfl
      | ok =>
        show (s.tags.verify >>= _) = _
        rw [hverify]
        rfl

/-- How a class is made: from the code of the statements of the procedure. -/
structure Blueprint (p : Procedure) (settings : Settings) (cls : GeneratorClass) where
  /-- the variables of the parameters -/
  params : List SymbolId
  /-- the code of the statements -/
  code : Code
  /-- all that is known behind them -/
  known : Ledger
  params_eq : p.resolve.1.params.map (fun x => x.name.symbol) = params.map some
  made : Made (p.context settings)
    ((Ledger.initial p.resolve.2).captureParams (params.zip (p.resolve.1.params.map Param.type))) []
    (.scope (.stmts p.resolve.1.body)) code known
  verified : known.tags.verify = .ok ()
  class_eq : cls = {
    name := p.resolve.1.name ++ settings.classSuffix
    procedure := p.resolve.1.name
    elementType := p.elementType?.getD settings.fallbackElementType
    params := p.resolve.1.params
    captures := known.captures
    advance := (code.sealed [] .finish).machine .root (Ledger.initial p.resolve.2).selector
    tags := known.tags
    symbols := known.symbols }

/-- **A class is made from the code of its procedure.** -/
theorem Procedure.lower_blueprint {p : Procedure} {settings : Settings} {cls : GeneratorClass}
    (h : p.lower settings = .ok cls) : Nonempty (Blueprint p settings cls) := by
  rw [p.lower_eq] at h
  obtain ⟨⟨code, L⟩, hrun, hassemble⟩ := exists_of_bind_ok h
  obtain ⟨xs, hxs, hmade⟩ := procedure_made hrun
  obtain ⟨_, hverify, hassemble⟩ := exists_of_bind_ok hassemble
  obtain ⟨_, _, hassemble⟩ := exists_of_bind_ok hassemble
  cases hassemble
  exact ⟨⟨xs, code, L, hxs, hmade, hverify, rfl⟩⟩

end Resumable
