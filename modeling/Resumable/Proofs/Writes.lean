import Resumable.Proofs.Congruence

/-!
# What statements write

A statement changes no variable but those that it names as a target.

* `Stmt.writes` are the variables that a statement may give a value to;
* `Run.Touches` says that a computation changes variables of one kind only;
* `Expr.eval_touches` and `Stmt.exec_touches`: running a piece of source touches what it writes;
* `Expr.eval_compound`: an assignment with an operator means its expansion, unless the operand
  changes the variable.
-/

namespace Resumable

open List

/-! ## Targets -/

namespace LocalDecl

/-- The variables that a declaration gives a value to. -/
def writes (d : LocalDecl) : List SymbolId := d.name.symbol.toList ++ writesOf? d.init

end LocalDecl

namespace Stmt

mutual

/-- The variables that a statement may give a value to. -/
def writes : Stmt → List SymbolId
  | empty _ => []
  | expr e _ => e.writes
  | declare d _ => d.writes
  | block body _ => writesAll body
  | cond test yes no _ => test.writes ++ writes yes ++ writesElse no
  | whileLoop test body _ => test.writes ++ writes body
  | doWhile body test _ => writes body ++ test.writes
  | forLoop init test update body _ =>
    writesAll init ++ writesOf? test ++ writesOf update ++ writes body
  | forEach var iterable body _ => var.name.symbol.toList ++ iterable.writes ++ writes body
  | switch selector cases _ => selector.writes ++ writesCases cases
  | tryCatch resources body catches final _ =>
    resources.flatMap LocalDecl.writes ++ writesAll body ++ writesCatches catches ++
      writesFinal final
  | labeled _ body _ => writes body
  | synchronized lock body _ => lock.writes ++ writesAll body
  | ret value _ => writesOf? value
  | brk _ _ => []
  | cont _ _ => []
  | raise value _ => value.writes

/-- The variables that statements may give a value to. -/
def writesAll : List Stmt → List SymbolId
  | [] => []
  | s :: ss => writes s ++ writesAll ss

/-- The variables that a branch that may be missing gives a value to. -/
def writesElse : Option Stmt → List SymbolId
  | none => []
  | some s => writes s

/-- The variables that final code that may be missing gives a value to. -/
def writesFinal : Option (List Stmt) → List SymbolId
  | none => []
  | some body => writesAll body

/-- The variables that cases may give a value to. -/
def writesCases : List SwitchCase → List SymbolId
  | [] => []
  | .mk labels _ body :: cs => writesOf labels ++ writesAll body ++ writesCases cs

/-- The variables that handlers may give a value to. -/
def writesCatches : List CatchClause → List SymbolId
  | [] => []
  | .mk param _ body :: cs => param.symbol.toList ++ writesAll body ++ writesCatches cs

end

variable {x : SymbolId} {ss : List Stmt}

theorem mem_writesOf? {e : Option Expr} : x ∈ writesOf? e ↔ ∃ e' ∈ e, x ∈ e'.writes := by
  cases e <;> simp [writesOf?]

theorem mem_writesAll : x ∈ writesAll ss ↔ ∃ s ∈ ss, x ∈ s.writes := by
  induction ss with
  | nil => simp [writesAll]
  | cons s ss ih => simp [writesAll, ih]

theorem mem_writesElse {no : Option Stmt} : x ∈ writesElse no ↔ ∃ s ∈ no, x ∈ s.writes := by
  cases no <;> simp [writesElse]

theorem mem_writesFinal {final : Option (List Stmt)} :
    x ∈ writesFinal final ↔ ∃ s ∈ final.getD [], x ∈ s.writes := by
  cases final <;> simp [writesFinal, mem_writesAll]

theorem mem_writesCases {cs : List SwitchCase} : x ∈ writesCases cs ↔
    ∃ c ∈ cs, x ∈ writesOf c.labels ∨ ∃ s ∈ c.body, x ∈ s.writes := by
  induction cs with
  | nil => simp [writesCases]
  | cons c cs ih =>
    obtain ⟨labels, isDefault, body⟩ := c
    simp [writesCases, ih, mem_writesAll, or_assoc, SwitchCase.labels, SwitchCase.body]

theorem mem_writesCatches {cs : List CatchClause} : x ∈ writesCatches cs ↔
    ∃ c ∈ cs, c.param.symbol = some x ∨ ∃ s ∈ c.body, x ∈ s.writes := by
  induction cs with
  | nil => simp [writesCatches]
  | cons c cs ih =>
    obtain ⟨param, types, body⟩ := c
    simp [writesCatches, ih, mem_writesAll, or_assoc, CatchClause.param, CatchClause.body]

end Stmt

/-! ## Computations that touch few variables -/

namespace Run

variable {α β : Type} {P : SymbolId → Prop}

/-- The memory that a computation leaves. -/
def memory {α : Type} : EStateM.Result Halt Memory α → Memory
  | .ok _ m => m
  | .error _ m => m

/-- The computation changes no variables but those of that kind. -/
def Touches (P : SymbolId → Prop) (c : Run α) : Prop :=
  ∀ m x, ¬ P x → (memory (c m)).vars.get? x = m.vars.get? x

theorem touches_pure (a : α) : (pure a : Run α).Touches P := fun _ _ _ => rfl

theorem touches_fail (f : Fault) : (fail f : Run α).Touches P := fun _ _ _ => rfl

/-- A run in two parts. -/
theorem Touches.bind {c : Run α} {f : α → Run β} (hc : c.Touches P) (hf : ∀ a, (f a).Touches P) :
    (c >>= f).Touches P := by
  intro m x hx
  have hfirst := hc m x hx
  show (memory (EStateM.bind c f m)).vars.get? x = _
  unfold EStateM.bind
  cases hm : c m with
  | ok a m' =>
    rw [hm] at hfirst
    exact (hf a m' x hx).trans hfirst
  | error =>
    rw [hm] at hfirst
    exact hfirst

theorem touches_ofEffect (c : Effect α) : (ofEffect c).Touches P := by
  intro m x _
  unfold ofEffect
  cases c m.world with
  | ok | error => rfl

theorem touches_ofResult (r : Except Fault α) : Touches P (ofResult r : Run α) := by
  cases r with
  | ok a => exact touches_pure a
  | error f => exact touches_fail f

theorem touches_get : (get : Run Memory).Touches P := fun _ _ _ => rfl

theorem Touches.attempt {c : Run α} (hc : c.Touches P) : Touches P (Run.attempt c) := by
  intro m x hx
  have h := hc m x hx
  unfold Run.attempt
  cases hm : c m with
  | ok =>
    rw [hm] at h
    exact h
  | error e =>
    rw [hm] at h
    cases e with
    | fault | outOfFuel => exact h

/-- A loop whose every round touches only these, by induction on the fuel. -/
theorem Touches.loop {step : β → Run (β ⊕ α)} (hstep : ∀ b, (step b).Touches P)
    (fuel : Nat) (b : β) : (Run.loop step fuel b).Touches P := by
  induction fuel generalizing b with
  | zero => exact fun _ _ _ => rfl
  | succ fuel ih =>
    intro m x hx
    have h := hstep b m x hx
    unfold Run.loop
    cases hm : step b m with
    | ok r m' =>
      rw [hm] at h
      cases r with
      | inl b' => exact (ih b' m' x hx).trans h
      | inr => exact h
    | error =>
      rw [hm] at h
      exact h

theorem Touches.repeatUntil {step : Run (Option α)} (hstep : step.Touches P) (fuel : Nat) :
    (Run.repeatUntil fuel step).Touches P := by
  refine Touches.loop (fun _ => hstep.bind fun r => ?_) fuel ()
  cases r with
  | none | some => exact touches_pure _

/-- Setting a field touches that field only. -/
theorem touches_setField {x : SymbolId} (hx : P x) (v : Value) : (setField x v).Touches P := by
  intro m y hy
  show (m.vars.set x v).get? y = _
  have hne : y ≠ x := by
    rintro rfl
    exact hy hx
  rw [Store.get?_set, if_neg hne]

theorem touches_load (x : Ident) : (load x).Touches P := by
  refine touches_get.bind fun m => ?_
  split
  · exact touches_pure _
  · exact touches_fail _

theorem touches_store {x : Ident} (hx : ∀ y ∈ x.symbol.toList, P y) (v : Value) :
    (store x v).Touches P := by
  unfold store
  split
  · next s hs => exact touches_setField (hx s (by rw [hs]; exact mem_singleton_self s)) v
  · exact touches_fail _

end Run

/-! ## Expressions -/

section Expressions

open Run

variable {P : SymbolId → Prop}

/-- To touch variables of one kind only goes over from the steps of an evaluation to the whole. -/
theorem touches_congruence (h : Host) : Congruence h (fun _ => True) P fun _ c _ =>
    c.Touches P where
  pure := touches_pure
  bind := Touches.bind
  mismatch _ := touches_fail _
  raise _ _ := touches_ofEffect _
  call _ _ := touches_ofEffect _
  invoke _ _ _ := touches_ofEffect _
  load x _ := touches_load x
  store _ hx := touches_store hx

/-- Evaluating an expression touches what it writes. -/
theorem Expr.eval_touches (h : Host) (e : Expr) (he : ∀ x ∈ e.writes, P x) : (e.eval h).Touches P :=
  (touches_congruence h).eval e ⟨fun _ _ => trivial, he⟩

theorem evalAll_touches (h : Host) (es : List Expr) (hes : ∀ x ∈ writesOf es, P x) :
    (evalAll h es).Touches P :=
  (touches_congruence h).evalAll es ⟨fun _ _ => trivial, hes⟩

theorem Expr.test_touches (h : Host) (e : Expr) (he : ∀ x ∈ e.writes, P x) : (e.test h).Touches P :=
  (touches_congruence h).test e ⟨fun _ _ => trivial, he⟩

theorem anyLabel_touches (h : Host) (v : Value) (es : List Expr) (hes : ∀ x ∈ writesOf es, P x) :
    (anyLabel h v es).Touches P :=
  (touches_congruence h).anyLabel v es ⟨fun _ _ => trivial, hes⟩

theorem lock_touches (h : Host) (e : Expr) (he : ∀ x ∈ e.writes, P x) : (lock h e).Touches P :=
  (touches_congruence h).lock e ⟨fun _ _ => trivial, he⟩

end Expressions

/-! ## Assignments with an operator -/

/-- An expression that does not write a variable leaves its value. -/
theorem Expr.eval_keeps {x : Ident} {e : Expr} (hx : ∀ s ∈ x.symbol, s ∉ e.writes) {h : Host}
    {m m' : Memory} {v : Value} (he : e.eval h m = .ok v m') :
    x.symbol.bind m'.vars.get? = x.symbol.bind m.vars.get? := by
  cases hs : x.symbol with
  | none => rfl
  | some s =>
    have htouches := e.eval_touches h (fun _ hy => hy) m s (hx s hs)
    rwa [he] at htouches

/-- **An assignment with an operator means its expansion** wherever the variable has a value that
the evaluation of the operand leaves as it is: the same value or fault, the same variables and the
same world. -/
theorem Expr.eval_compound {op : BinaryOp} (hop : op ∈ [.add, .sub, .mul, .div, .rem]) {x : Ident}
    {e : Expr} {h : Host} {m : Memory} (hx : (x.symbol.bind m.vars.get?).isSome)
    (hkeep : ∀ v m', e.eval h m = .ok v m' →
      x.symbol.bind m'.vars.get? = x.symbol.bind m.vars.get?) :
    (Expr.assign x (some op) e).eval h m =
    (Expr.assign x none (.binary op (.ident x) e)).eval h m := by
  obtain ⟨a, ha⟩ := Option.isSome_iff_exists.mp hx
  have hload : ∀ m', x.symbol.bind m'.vars.get? = some a → Run.load x m' = .ok a m' := by
    intro m' hm
    have hget : ∀ k : Memory → Run Value, (get >>= k) m' = k m' m' := fun _ => rfl
    rw [Run.load, hget, hm]
    rfl
  have hbinary : (Expr.binary op (.ident x) e).eval h =
      (do op.apply (← Run.load x) (← e.eval h)) := by
    simp only [mem_cons, not_mem_nil, or_false] at hop
    rcases hop with rfl | rfl | rfl | rfl | rfl <;> rw [Expr.eval, Expr.eval] <;> simp
  cases he : e.eval h m with
  | error f m' => simp only [Expr.eval, hbinary, bind, EStateM.bind, hload m ha, he]
  | ok v m' =>
    have hload' := hload m' ((hkeep v m' he).trans ha)
    simp only [Expr.eval, hbinary, bind, EStateM.bind, hload m ha, he, hload']
    cases op.apply a v m' <;> rfl

/-- A host without functions and iterators. -/
def bareHost : Host := ⟨fun _ _ => pure .null, fun _ => pure false, fun _ => pure .null⟩

/-- Two variables with the value 1. -/
def twoOnes : Memory := ⟨⟨[(⟨0⟩, .int 1), (⟨1⟩, .int 1)]⟩, .empty⟩

theorem Expr.eval_compound_other : let x : Ident := ⟨"x", some ⟨0⟩⟩
    let e : Expr := .increment ⟨"y", some ⟨1⟩⟩ 1 true
    (x.symbol.bind twoOnes.vars.get?).isSome ∧ (∀ s ∈ x.symbol, s ∉ e.writes) ∧
      (Expr.assign x (some .sub) e).eval bareHost twoOnes =
        (Expr.assign x none (.binary .sub (.ident x) e)).eval bareHost twoOnes := by
  refine ⟨rfl, by decide, Expr.eval_compound (by simp) rfl fun v m' he => ?_⟩
  exact Expr.eval_keeps (by decide) he

/-- `x += x++`: the operand is evaluated first, so that its new value is added. -/
theorem Expr.eval_compound_step : let x : Ident := ⟨"x", some ⟨0⟩⟩
    let e : Expr := .increment x 1 true
    (∃ m, (Expr.assign x (some .add) e).eval bareHost twoOnes = .ok (.int 3) m) ∧
      ∃ m, (Expr.assign x none (.binary .add (.ident x) e)).eval bareHost twoOnes = .ok
        (.int 2) m :=
  ⟨⟨_, rfl⟩, ⟨_, rfl⟩⟩

/-! ## Statements -/

section Statements

open Run

variable {fuel : Nat} {label : Option String} {test : Run Bool} {body : Run Completion}

variable {P : SymbolId → Prop}

theorem Run.Touches.whileTrue (htest : test.Touches P) (hbody : body.Touches P) :
    (Run.whileTrue fuel label test body).Touches P := by
  refine (htest.bind fun b => ?_).repeatUntil fuel
  split
  · exact hbody.bind fun c => touches_pure _
  · exact touches_pure _

theorem Run.Touches.untilFalse (hbody : body.Touches P) (htest : test.Touches P) :
    (Run.untilFalse fuel label body test).Touches P := by
  refine (hbody.bind fun c => ?_).repeatUntil fuel
  split
  · exact touches_pure _
  · refine htest.bind fun b => ?_
    split
    · exact touches_pure _
    · exact touches_pure _

theorem Run.Touches.counting {update : Run Unit} (htest : test.Touches P)
    (hupdate : update.Touches P) (hbody : body.Touches P) :
    (Run.counting fuel label test update body).Touches P := by
  refine (htest.bind fun b => ?_).repeatUntil fuel
  split
  · refine hbody.bind fun c => ?_
    split
    · exact touches_pure _
    · exact hupdate.bind fun _ => touches_pure _
  · exact touches_pure _

theorem Run.Touches.forAll {h : Host} {var : Ident} {source : Value}
    (hvar : ∀ x ∈ var.symbol.toList, P x) (hbody : body.Touches P) :
    (Run.forAll fuel h label var source body).Touches P :=
  (touches_ofEffect _).bind fun _ => Run.Touches.whileTrue
    ((touches_ofEffect _).bind fun v => touches_ofResult v.asBool)
    ((touches_ofEffect _).bind fun v => (touches_store hvar v).bind fun _ => hbody)

theorem Run.touches_fallThrough (bodies : List (Run Completion))
    (hbodies : ∀ b ∈ bodies, b.Touches P) : (Run.fallThrough bodies).Touches P := by
  induction bodies with
  | nil => exact touches_pure _
  | cons body bodies ih =>
    refine (hbodies body mem_cons_self).bind fun c => ?_
    split
    · exact ih fun b hb => hbodies b (mem_cons_of_mem _ hb)
    · exact touches_pure _
    · exact touches_pure _

/-! ### Tries -/

theorem touches_init (h : Host) (d : LocalDecl) (default : Value) (hd : ∀ x ∈ d.writes, P x) :
    (d.init.elim (pure default) (Expr.eval h)).Touches P :=
  (touches_congruence h).init d.init default
  ⟨fun _ _ => trivial, fun x hx => hd x (mem_append_right _ hx)⟩

theorem Run.touches_openAll (h : Host) (ds : List LocalDecl) (opened : List Value)
    (hds : ∀ x ∈ ds.flatMap LocalDecl.writes, P x) : (Run.openAll h ds opened).Touches P := by
  induction ds generalizing opened with
  | nil => exact touches_pure _
  | cons d ds ih =>
    rw [flatMap_cons] at hds
    refine (touches_init h d _ fun x hx => hds x (mem_append_left _ hx)).attempt.bind fun r => ?_
    split
    · refine (touches_store (fun x hx => hds x ?_) _).bind fun _ => ?_
      · exact mem_append_left _ (mem_append_left _ hx)
      · exact ih _ fun x hx => hds x (mem_append_right _ hx)
    · exact touches_pure _

theorem Run.touches_closeAll (h : Host) (result : Except Fault Completion) (vs : List Value) :
    (Run.closeAll h result vs).Touches P := by
  induction vs generalizing result with
  | nil => exact touches_pure _
  | cons v vs ih =>
    unfold Run.closeAll
    split
    · exact ih result
    · refine (touches_ofEffect _).attempt.bind fun r => ?_
      split
      · exact ih result
      · refine (touches_ofEffect _).bind fun failure => ?_
        refine Touches.bind ?_ fun r => ih r
        unfold Run.afterCloseFailure
        split
        · exact touches_pure _
        · exact (touches_ofEffect _).bind fun _ => touches_pure _
        · exact touches_pure _

theorem Run.Touches.withResources {h : Host} {ds : List LocalDecl}
    (hds : ∀ x ∈ ds.flatMap LocalDecl.writes, P x) (hbody : body.Touches P) :
    (Run.withResources h ds body).Touches P := by
  refine (touches_openAll h ds [] hds).bind fun r => ?_
  obtain ⟨opened, stopped⟩ := r
  cases stopped with
  | none =>
    exact hbody.attempt.bind fun result => (touches_closeAll h result opened).bind fun r =>
      touches_ofResult r
  | some =>
    exact (touches_pure _).bind fun result => (touches_closeAll h result opened).bind fun r =>
      touches_ofResult r

/-- The start and the body of a handler touch variables of that kind only. -/
def Run.Handling.Touches (P : SymbolId → Prop) (c : Run.Handling) : Prop :=
  (∀ x ∈ c.param.symbol.toList, P x) ∧ c.body.Touches P

theorem Run.touches_handle (handlers : List Run.Handling) (result : Except Fault Completion)
    (hhandlers : ∀ c ∈ handlers, c.Touches P) : Touches P (Run.handle handlers result) := by
  unfold Run.handle
  split
  · exact touches_pure _
  · split
    · refine (touches_ofEffect _).bind fun failure => ?_
      split
      · next c hc =>
        obtain ⟨hparam, hbody⟩ := hhandlers c (mem_of_find?_eq_some hc)
        exact (touches_store hparam _).bind fun _ => hbody.attempt
      · exact touches_pure _
    · exact touches_pure _

theorem Run.Touches.tryWith {h : Host} {ds : List LocalDecl} {handlers : List Run.Handling}
    {final : Option (Run Completion)} (hds : ∀ x ∈ ds.flatMap LocalDecl.writes, P x)
    (hbody : body.Touches P) (hhandlers : ∀ c ∈ handlers, c.Touches P)
    (hfinal : ∀ c, final = some c → c.Touches P) :
    (Run.tryWith h ds body handlers final).Touches P := by
  refine (Touches.withResources hds hbody).attempt.bind fun result =>
    (touches_handle handlers result hhandlers).bind fun result => ?_
  unfold Run.finishWith
  split
  · exact touches_ofResult result
  · next c =>
    refine (hfinal c rfl).bind fun c => ?_
    split
    · exact touches_ofResult result
    · exact touches_pure _

theorem raiseValue_touches (v : Value) : (raiseValue v).Touches P := by
  unfold raiseValue
  split
  · exact touches_fail _
  · exact touches_ofEffect _
  · exact touches_fail _

mutual

/-- Running a statement touches what it writes. -/
theorem Stmt.exec_touches (h : Host) (fuel : Nat) (label : Option String) (s : Stmt)
    (hs : ∀ x ∈ s.writes, P x) : (s.exec h fuel label).Touches P := by
  cases s with
  | empty | brk | cont => exact touches_pure _
  | expr e => exact (e.eval_touches h hs).bind fun _ => touches_pure _
  | declare d =>
    exact (touches_init h d _ hs).bind fun v =>
      (touches_store (fun x hx => hs x (mem_append_left _ hx)) v).bind fun _ => touches_pure _
  | block body => exact execAll_touches h fuel body hs
  | cond test yes no =>
    have htest := test.test_touches h fun x hx =>
      hs x (mem_append_left _ (mem_append_left _ hx))
    have hyes := Stmt.exec_touches h fuel none yes fun x hx =>
      hs x (mem_append_left _ (mem_append_right _ hx))
    cases no with
    | none =>
      refine htest.bind fun b => ?_
      split
      · exact hyes
      · exact touches_pure _
    | some no =>
      have hno := Stmt.exec_touches h fuel none no fun x hx => hs x (mem_append_right _ hx)
      refine htest.bind fun b => ?_
      split
      · exact hyes
      · exact hno
  | whileLoop test body =>
    exact .whileTrue (test.test_touches h fun x hx => hs x (mem_append_left _ hx))
      (Stmt.exec_touches h fuel none body fun x hx => hs x (mem_append_right _ hx))
  | doWhile body test =>
    exact .untilFalse (Stmt.exec_touches h fuel none body fun x hx => hs x (mem_append_left _ hx))
      (test.test_touches h fun x hx => hs x (mem_append_right _ hx))
  | forLoop init test update body =>
    simp only [Stmt.writes, mem_append] at hs
    have htest : (test.elim (pure true) (Expr.test h)).Touches P := by
      cases test with
      | none => exact touches_pure _
      | some e => exact e.test_touches h fun x hx => hs x (.inl (.inl (.inr hx)))
    exact (execStart_touches h fuel init fun x hx => hs x (.inl (.inl (.inl hx)))).bind fun _ =>
      .counting htest ((evalAll_touches h update fun x hx => hs x (.inl (.inr hx))).bind
        fun _ => touches_pure _)
        (Stmt.exec_touches h fuel none body fun x hx => hs x (.inr hx))
  | forEach var iterable body =>
    simp only [Stmt.writes, mem_append] at hs
    exact (iterable.eval_touches h fun x hx => hs x (.inl (.inr hx))).bind fun v =>
      .forAll (fun x hx => hs x (.inl (.inl hx)))
        (Stmt.exec_touches h fuel none body fun x hx => hs x (.inr hx))
  | switch selector cases =>
    have hcases : ∀ x ∈ Stmt.writesCases cases, P x := fun x hx => hs x (mem_append_right _ hx)
    have hlabels : ∀ c ∈ cases, Reach (fun _ => True) P (usesOf c.labels) (writesOf c.labels) :=
      fun c hc =>
        ⟨fun _ _ => trivial, fun x hx => hcases x (Stmt.mem_writesCases.mpr ⟨c, hc, .inl hx⟩)⟩
    refine (selector.eval_touches h fun x hx => hs x (mem_append_left _ hx)).bind fun v =>
      ((touches_congruence h).startOfSwitch v cases hlabels).bind fun r => ?_
    split
    · exact touches_fallThrough _ fun b hb =>
        execCases_touches h fuel cases hcases b (mem_of_mem_drop hb)
    · exact touches_pure _
  | tryCatch resources body catches final =>
    simp only [Stmt.writes, mem_append] at hs
    have hbody := execAll_touches h fuel body fun x hx => hs x (.inl (.inl (.inr hx)))
    have hcatches := execHandlers_touches h fuel catches fun x hx => hs x (.inl (.inr hx))
    have hds : ∀ x ∈ resources.flatMap LocalDecl.writes, P x := fun x hx =>
      hs x (.inl (.inl (.inl hx)))
    cases final with
    | none => exact .tryWith hds hbody hcatches (fun c hc => by cases hc)
    | some final =>
      have hfinal := execAll_touches h fuel final fun x hx => hs x (.inr hx)
      exact .tryWith hds hbody hcatches (fun c hc => by cases hc; exact hfinal)
  | labeled own body =>
    exact (Stmt.exec_touches h fuel (some own) body hs).bind fun _ => touches_pure _
  | synchronized e body =>
    exact (lock_touches h e fun x hx => hs x (mem_append_left _ hx)).bind fun _ =>
      execAll_touches h fuel body fun x hx => hs x (mem_append_right _ hx)
  | ret => exact touches_fail _
  | raise e => exact (e.eval_touches h hs).bind fun v => raiseValue_touches v

theorem execAll_touches (h : Host) (fuel : Nat) (ss : List Stmt)
    (hss : ∀ x ∈ Stmt.writesAll ss, P x) : (execAll h fuel ss).Touches P := by
  cases ss with
  | nil => exact touches_pure _
  | cons s ss =>
    refine (Stmt.exec_touches h fuel none s fun x hx => hss x (mem_append_left _ hx)).bind fun c =>
      ?_
    split
    · exact execAll_touches h fuel ss fun x hx => hss x (mem_append_right _ hx)
    · exact touches_pure _

theorem execStart_touches (h : Host) (fuel : Nat) (ss : List Stmt)
    (hss : ∀ x ∈ Stmt.writesAll ss, P x) : (execStart h fuel ss).Touches P := by
  cases ss with
  | nil => exact touches_pure _
  | cons s ss =>
    exact (Stmt.exec_touches h fuel none s fun x hx => hss x (mem_append_left _ hx)).bind
      fun _ => execStart_touches h fuel ss fun x hx => hss x (mem_append_right _ hx)

theorem execCases_touches (h : Host) (fuel : Nat) (cases : List SwitchCase)
    (hcases : ∀ x ∈ Stmt.writesCases cases, P x) : ∀ b ∈ execCases h fuel cases, b.Touches P := by
  match cases with
  | [] => exact fun b hb => by cases hb
  | .mk labels isDefault body :: rest =>
    simp only [Stmt.writesCases, mem_append] at hcases
    intro b hb
    rcases mem_cons.mp hb with rfl | hb
    · exact execAll_touches h fuel body fun x hx => hcases x (.inl (.inr hx))
    · exact execCases_touches h fuel rest (fun x hx => hcases x (.inr hx)) b hb

theorem execHandlers_touches (h : Host) (fuel : Nat) (catches : List CatchClause)
    (hcatches : ∀ x ∈ Stmt.writesCatches catches, P x) :
    ∀ c ∈ execHandlers h fuel catches, c.Touches P := by
  match catches with
  | [] => exact fun c hc => by cases hc
  | .mk param types body :: rest =>
    simp only [Stmt.writesCatches, mem_append] at hcatches
    intro c hc
    rcases mem_cons.mp hc with rfl | hc
    · exact ⟨fun x hx => hcatches x (.inl (.inl hx)),
        execAll_touches h fuel body fun x hx => hcatches x (.inl (.inr hx))⟩
    · exact execHandlers_touches h fuel rest (fun x hx => hcatches x (.inr hx)) c hc

end

end Statements

end Resumable
