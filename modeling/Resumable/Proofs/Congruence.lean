import Resumable.Execution.Stmt

/-!
# What holds of all expressions

An expression is evaluated by a few steps: it looks at variables and changes them, calls functions
and methods, and fails. What goes over from these steps to sequences of them goes over to
expressions.

* `Expr.uses` are the variables that occur in an expression, and `Expr.writes` those that it may
  give a value to;
* a `Congruence` is a relation of computations that holds of the steps and goes over to sequences;
* `Congruence.eval` and what follows it: a congruence holds of the evaluation of expressions.
-/

namespace Resumable

open List

/-! ## Variables -/

mutual

/-- The variables that occur in an expression. -/
def Expr.uses : Expr → List SymbolId
  | .literal _ => []
  | .ident x => x.symbol.toList
  | .unary _ e => e.uses
  | .binary _ a b => a.uses ++ b.uses
  | .assign x _ e => x.symbol.toList ++ e.uses
  | .increment x _ _ => x.symbol.toList
  | .call _ args => usesOf args
  | .method e _ args => e.uses ++ usesOf args

/-- The variables that occur in expressions. -/
def usesOf : List Expr → List SymbolId
  | [] => []
  | e :: es => e.uses ++ usesOf es

end

/-- The variables that occur in an expression that may be missing. -/
def usesOf? (e : Option Expr) : List SymbolId := e.elim [] Expr.uses

mutual

/-- The variables that an expression may give a value to. -/
def Expr.writes : Expr → List SymbolId
  | .literal _ => []
  | .ident _ => []
  | .unary _ e => e.writes
  | .binary _ a b => a.writes ++ b.writes
  | .assign x _ e => x.symbol.toList ++ e.writes
  | .increment x _ _ => x.symbol.toList
  | .call _ args => writesOf args
  | .method e _ args => e.writes ++ writesOf args

/-- The variables that expressions may give a value to. -/
def writesOf : List Expr → List SymbolId
  | [] => []
  | e :: es => e.writes ++ writesOf es

end

/-- The variables that an expression that may be missing gives a value to. -/
def writesOf? (e : Option Expr) : List SymbolId := e.elim [] Expr.writes

theorem mem_writesOf {es : List Expr} {x : SymbolId} :
    x ∈ writesOf es ↔ ∃ e ∈ es, x ∈ e.writes := by
  induction es with
  | nil => simp [writesOf]
  | cons e es ih => simp [writesOf, ih]

/-- Variables that occur are of the one kind, and those that are written of the other. -/
def Reach (reads writes : SymbolId → Prop) (us ws : List SymbolId) : Prop :=
  (∀ x ∈ us, reads x) ∧ ∀ x ∈ ws, writes x

namespace Reach

variable {reads writes : SymbolId → Prop} {us us' ws ws' : List SymbolId}

theorem left (h : Reach reads writes (us ++ us') (ws ++ ws')) : Reach reads writes us ws :=
  ⟨fun x hx => h.1 x (mem_append_left _ hx), fun x hx => h.2 x (mem_append_left _ hx)⟩

theorem right (h : Reach reads writes (us ++ us') (ws ++ ws')) : Reach reads writes us' ws' :=
  ⟨fun x hx => h.1 x (mem_append_right _ hx), fun x hx => h.2 x (mem_append_right _ hx)⟩

end Reach

/-! ## Congruences -/

/-- A relation of computations that holds of each step of an evaluation with itself, as long as it
looks at variables of the one kind and changes variables of the other, and goes over to sequences.
-/
structure Congruence (h : Host) (reads writes : SymbolId → Prop)
    (Q : (α : Type) → Run α → Run α → Prop) : Prop where
  pure : ∀ {α : Type} (a : α), Q α (pure a) (pure a)
  bind : ∀ {α β : Type} {c c' : Run α} {k k' : α → Run β}, Q α c c' → (∀ a, Q β (k a) (k' a)) →
    Q β (c >>= k) (c' >>= k')
  mismatch : ∀ {α : Type} (cause : Mismatch), Q α (Run.fail (.mismatch cause))
    (Run.fail (.mismatch cause))
  raise : ∀ {α : Type} (className message : String),
    Q α (Run.ofEffect (World.raise className message))
      (Run.ofEffect (World.raise className message))
  call : ∀ f vs, Q Value (Run.ofEffect (h.call f vs)) (Run.ofEffect (h.call f vs))
  invoke : ∀ (v : Value) name vs, Q Value (Run.ofEffect (v.invoke h name vs))
    (Run.ofEffect (v.invoke h name vs))
  load : ∀ x : Ident, (∀ s ∈ x.symbol.toList, reads s) → Q Value (Run.load x) (Run.load x)
  store : ∀ x : Ident, (∀ s ∈ x.symbol.toList, writes s) →
    ∀ v, Q Unit (Run.store x v) (Run.store x v)

namespace Congruence

variable {h : Host} {reads writes : SymbolId → Prop} {Q : (α : Type) → Run α → Run α → Prop}
  (hQ : Congruence h reads writes Q)

include hQ

theorem asInt (v : Value) : Q Int64 (ofResult v.asInt) (ofResult v.asInt) := by
  cases v with
  | int n => exact hQ.pure n
  | _ => exact hQ.mismatch _

theorem asBool (v : Value) : Q Bool (ofResult v.asBool) (ofResult v.asBool) := by
  cases v with
  | bool b => exact hQ.pure b
  | _ => exact hQ.mismatch _

/-- Operators act on values alone. -/
theorem binary (op : BinaryOp) (a b : Value) : Q Value (op.apply a b) (op.apply a b) := by
  have hints : ∀ (a b : Value) f, Q Value (BinaryOp.onInts a b f) (BinaryOp.onInts a b f) :=
    fun a b f =>
    hQ.bind (hQ.asInt a) fun _ => hQ.bind (hQ.asInt b) fun _ => hQ.pure _
  have hcompare : ∀ f, Q Value (BinaryOp.comparing a b f) (BinaryOp.comparing a b f) := fun f =>
    hQ.bind (hQ.asInt a) fun _ => hQ.bind (hQ.asInt b) fun _ => hQ.pure _
  have hdivide : ∀ f, Q Value (BinaryOp.dividing a b f) (BinaryOp.dividing a b f) := by
    intro f
    refine hQ.bind (hQ.asInt a) fun x => hQ.bind (hQ.asInt b) fun y => ?_
    split
    · exact hQ.raise _ _
    · exact hQ.pure _
  cases op with
  | add =>
    -- the sum joins texts as well, so its operands decide
    show Q Value (BinaryOp.sum a b) (BinaryOp.sum a b)
    unfold BinaryOp.sum
    split
    · exact hQ.pure _
    · exact hQ.pure _
    · exact hints _ _ _
  | sub | mul => exact hints _ _ _
  | div | rem => exact hdivide _
  | eq | ne => exact hQ.pure _
  | lt | le | gt | ge => exact hcompare _
  | and =>
    refine hQ.bind (hQ.asBool a) fun x => ?_
    split
    · exact hQ.bind (hQ.asBool b) fun _ => hQ.pure _
    · exact hQ.pure _
  | or =>
    refine hQ.bind (hQ.asBool a) fun x => ?_
    split
    · exact hQ.pure _
    · exact hQ.bind (hQ.asBool b) fun _ => hQ.pure _

theorem unary (op : UnaryOp) (a : Value) : Q Value (op.apply a) (op.apply a) := by
  cases op with
  | neg => exact hQ.bind (hQ.asInt a) fun _ => hQ.pure _
  | not => exact hQ.bind (hQ.asBool a) fun _ => hQ.pure _

mutual

/-- A congruence holds of the evaluation of an expression. -/
theorem eval (e : Expr) (he : Reach reads writes e.uses e.writes) :
    Q Value (e.eval h) (e.eval h) := by
  cases e with
  | literal => exact hQ.pure _
  | ident x => exact hQ.load x he.1
  | unary op a => exact hQ.bind (eval a he) fun v => hQ.unary op v
  | binary op a b =>
    have ha := eval a he.left
    have hb := eval b he.right
    have hstrict : Q Value (do op.apply (← a.eval h) (← b.eval h))
        (do op.apply (← a.eval h) (← b.eval h)) :=
      hQ.bind ha fun v => hQ.bind hb fun w => hQ.binary op v w
    cases op with
    | and =>
      refine hQ.bind ha fun v => hQ.bind (hQ.asBool v) fun x => ?_
      split
      · exact hQ.bind hb fun w => hQ.bind (hQ.asBool w) fun _ => hQ.pure _
      · exact hQ.pure _
    | or =>
      refine hQ.bind ha fun v => hQ.bind (hQ.asBool v) fun x => ?_
      split
      · exact hQ.pure _
      · exact hQ.bind hb fun w => hQ.bind (hQ.asBool w) fun _ => hQ.pure _
    | _ => exact hstrict
  | assign x op value =>
    have hstore := hQ.store x he.left.2
    rw [Expr.eval]
    refine hQ.bind (eval value he.right) fun v => ?_
    cases op with
    | none => exact hQ.bind (hQ.pure v) fun w => hQ.bind (hstore w) fun _ => hQ.pure _
    | some op =>
      exact hQ.bind (c := Run.load x) (hQ.load x he.left.1) fun w =>
        hQ.bind (hQ.binary op w v) fun w =>
        hQ.bind (hstore w) fun _ => hQ.pure _
  | increment x =>
    exact hQ.bind (hQ.load x he.1) fun v => hQ.bind (hQ.asInt v) fun n =>
      hQ.bind (hQ.store x he.2 _) fun _ => hQ.pure _
  | call f args => exact hQ.bind (evalAll args he) fun vs => hQ.call f vs
  | method e name args =>
    exact hQ.bind (eval e he.left) fun v => hQ.bind (evalAll args he.right) fun vs =>
      hQ.invoke v name vs

theorem evalAll (es : List Expr) (hes : Reach reads writes (usesOf es) (writesOf es)) :
    Q (List Value) (Resumable.evalAll h es) (Resumable.evalAll h es) := by
  cases es with
  | nil => exact hQ.pure _
  | cons e es =>
    exact hQ.bind (eval e hes.left) fun v => hQ.bind (evalAll es hes.right) fun vs => hQ.pure _

end

theorem test (e : Expr) (he : Reach reads writes e.uses e.writes) : Q Bool (e.test h) (e.test h) :=
  hQ.bind (hQ.eval e he) fun v => hQ.asBool v

theorem anyLabel (v : Value) (es : List Expr) (hes : Reach reads writes (usesOf es) (writesOf es)) :
    Q Bool (Resumable.anyLabel h v es) (Resumable.anyLabel h v es) := by
  induction es with
  | nil => exact hQ.pure _
  | cons e es ih =>
    refine hQ.bind (hQ.eval e hes.left) fun w => ?_
    split
    · exact hQ.pure _
    · exact ih hes.right

theorem lock (e : Expr) (he : Reach reads writes e.uses e.writes) :
    Q Unit (Resumable.lock h e) (Resumable.lock h e) := by
  refine hQ.bind (hQ.eval e he) fun v => ?_
  split
  · exact hQ.raise _ _
  · exact hQ.pure _

theorem init (e : Option Expr) (v : Value) (he : Reach reads writes (usesOf? e) (writesOf? e)) :
    Q Value (e.elim (Pure.pure v) (Expr.eval h)) (e.elim (Pure.pure v) (Expr.eval h)) := by
  cases e with
  | none => exact hQ.pure v
  | some e => exact hQ.eval e he

theorem startOfSwitch (v : Value) (cases : List SwitchCase)
    (hcases : ∀ c ∈ cases, Reach reads writes (usesOf c.labels) (writesOf c.labels)) :
    Q (Option Nat) (Run.startOfSwitch h v cases) (Run.startOfSwitch h v cases) := by
  have hcase : ∀ n, Q (Option Nat) (Run.caseOf h v n cases) (Run.caseOf h v n cases) := by
    induction cases with
    | nil => exact fun _ => hQ.pure _
    | cons c cs ih =>
      intro n
      refine hQ.bind (hQ.anyLabel v c.labels (hcases c mem_cons_self)) fun b => ?_
      split
      · exact hQ.pure _
      · exact ih (fun c hc => hcases c (mem_cons_of_mem _ hc)) (n + 1)
  refine hQ.bind (hcase 0) fun n => ?_
  split
  · exact hQ.pure _
  · exact hQ.pure _

end Congruence

end Resumable
