import Resumable.Proofs.Rules

/-!
# Where ops come from

What may stand in an op of lowered code, said once for all properties that look at each op on its
own.

* an `Origin` is the body of a procedure, with the variables that are `kept` between two steps;
* `Origin.Speaks` are the expressions that ops may hold: those of the source, in which no marker
  stands, and the few that lowering makes itself;
* `Origin.Traces` says of an op that its expressions are of that kind, that its own variables are
  kept, and that a statement that it keeps is a plain one of the body or the update of a loop;
* `Made.backed`: the fields that scopes drop, and those in which machines leave tags, are fields;
* `Made.traces`, `Blueprint.traced`: every op of code, and so of a class, is traced back to the
  body.
-/

namespace Resumable

open List

/-! ## The parts of ops and statements -/

namespace Op

/-- The expressions of an op itself, without those of the statement or the ops in it. -/
def exprs : Op → List Expr
  | .assign _ e | .yield e => [e]
  | .cond test _ _ => [test]
  | .switch selector arms => selector :: arms.flatMap SwitchArm.labels
  | .synchronized lock _ => [lock]
  | .plain _ | .clear _ | .setState _ | .jump _ | .finish | .guarded _ _ | .rethrow _ => []

/-- The variables of an op itself, without those in its expressions. -/
def slots : Op → List SymbolId
  | .assign x _ | .clear x | .rethrow x => [x]
  | .guarded machine fields =>
    machine.selector :: fields.inHandler :: fields.pending :: fields.pendingJump ::
      (fields.resources ++ fields.handlers.map Handler.param)
  | .plain _ | .setState _ | .jump _ | .yield _ | .finish | .cond _ _ _ | .switch _ _
  | .synchronized _ _ => []

end Op

namespace Stmt

/-- A single expression. -/
def isExpr : Stmt → Bool
  | expr _ _ => true
  | _ => false

theorem ordinary_eq_exprs {m : Markers} {s : Stmt} (h : s.isExpr = false) :
    s.ordinary m = s.exprs := by
  cases s with
  | expr => cases h
  | _ => rfl

end Stmt

namespace Lowering

open Ledger

/-! ## Origins -/

/-- The body of a procedure, and what is asked of its variables. -/
structure Origin where
  /-- the statements that code is made of -/
  body : List Stmt
  /-- the variable outlives a step -/
  kept : SymbolId → Prop

namespace Origin

variable (O : Origin) (m : Markers)

/-- The expression stands in the body, or is there the argument of a marker, and no marker stands in
it. -/
def Stands (e : Expr) : Prop :=
  (∃ path s, Lies O.body path s ∧ e ∈ s.ordinary m) ∧ e.findMarker? m = none

/-- The expressions that ops may hold. -/
inductive Speaks : Expr → Prop where
  | source {e} (he : O.Stands m e) (huses : ∀ x ∈ e.uses, O.kept x) : Speaks e
  /-- what a loop over an iterable asks for -/
  | iterator {e} (he : O.Stands m e) (huses : ∀ x ∈ e.uses, O.kept x) :
    Speaks (.method e "iterator" [])
  /-- what an iterator is asked -/
  | call {x y} (hx : x.symbol = some y) (hy : O.kept y) (name : String) :
    Speaks (Part.callOn x name)
  /-- whether a tag waits -/
  | waits {x y} (hx : x.symbol = some y) (hy : O.kept y) (n : Int64) :
    Speaks (.binary .eq (.ident x) (.int n))
  | literal (l : Literal) : Speaks (.literal l)

/-- The op is traced back to the body. -/
structure Traces (op : Op) : Prop where
  exprs : ∀ e ∈ op.exprs, O.Speaks m e
  slots : ∀ x ∈ op.slots, O.kept x
  plain : ∀ s, op = .plain s → s.needsLowering m = false ∧ s.Sees O.kept ∧
    ((∃ path, Lies O.body path s) ∧ (∀ d loc, s ≠ .declare d loc) ∨ ∃ e loc,
      s = .expr e loc ∧ O.Stands m e)

/-- The names in force behind labelled statements are kept. -/
def KeepsLabels : Prop :=
  ∀ path label s loc, Lies O.body path (.labeled label s loc) → ∀ x ∈ s.names, O.kept x

variable {O} {m} {s : Stmt} {e : Expr} {x : SymbolId} {op : Op}

theorem Speaks.uses (h : O.Speaks m e) : ∀ x ∈ e.uses, O.kept x := by
  cases h with
  | source _ huses => exact huses
  | iterator _ huses => exact fun x hx => huses x (by simpa [Expr.uses, usesOf] using hx)
  | @call x y hx hy | @waits x y hx hy =>
    intro z hz
    have hz' : z = y := by simpa [Part.callOn, Expr.int, Expr.uses, usesOf, hx] using hz
    exact hz' ▸ hy
  | literal => exact forall_mem_nil _

/-- No marker stands in the expression of an op. -/
theorem Speaks.unmarked (h : O.Speaks m e) : e.findMarker? m = none := by
  cases h with
  | source he => exact he.2
  | iterator he =>
    rw [Expr.findMarker?, he.2]
    rfl
  | _ => rfl

theorem stands_of_lies (hs : ∀ t ∈ [s], ∃ path, Lies O.body path t) (hs' : s.isExpr = false)
    (he : e ∈ s.exprs) (hm : e.findMarker? m = none) : O.Stands m e := by
  obtain ⟨path, hlies⟩ := hs s mem_cons_self
  exact ⟨⟨path, s, hlies, Stmt.ordinary_eq_exprs hs' ▸ he⟩, hm⟩

theorem traces_bare (hexprs : ∀ e ∈ op.exprs, O.Speaks m e) (hslots : ∀ x ∈ op.slots, O.kept x)
    (hplain : op.isPlain = false) : O.Traces m op where
  exprs := hexprs
  slots := hslots
  plain := by
    rintro s rfl
    cases hplain

theorem traces_assign (hx : O.kept x) (he : O.Speaks m e) : O.Traces m (.assign x e) :=
  traces_bare (forall_mem_singleton.mpr he) (forall_mem_singleton.mpr hx) rfl

theorem traces_yield (he : O.Speaks m e) : O.Traces m (.yield e) :=
  traces_bare (forall_mem_singleton.mpr he) nofun rfl

theorem traces_cond (he : O.Speaks m e) (yes no : List Op) : O.Traces m (.cond e yes no) :=
  traces_bare (forall_mem_singleton.mpr he) nofun rfl

theorem traces_clear (hx : O.kept x) : O.Traces m (.clear x) :=
  traces_bare nofun (forall_mem_singleton.mpr hx) rfl

theorem traces_moves : Moves (O.Traces m) where
  setState _ := traces_bare nofun nofun rfl
  jump _ := traces_bare nofun nofun rfl
  finish := traces_bare nofun nofun rfl

theorem traces_update (he : O.Stands m e) (huses : ∀ x ∈ e.uses, O.kept x) (loc : Location) :
    O.Traces m (.plain (.expr e loc)) where
  exprs := nofun
  slots := nofun
  plain := by
    rintro s ⟨⟩
    refine ⟨?_, ⟨e.uses, fun x hx => hx, huses⟩, .inr ⟨e, loc, rfl, he⟩⟩
    rw [Stmt.needsLowering, Stmt.leaves, he.2]
    rfl

end Origin

/-! ## Ledgers -/

/-- The fields that are dropped at the ends of scopes are fields, and so is the one in which the
machine at hand leaves tags. -/
structure Ledger.Backed (L : Ledger) : Prop where
  scopes : ∀ x ∈ L.scopes.flatten, L.captures.contains x
  pendingJump : ∀ x, L.pendingJump = some x → L.captures.contains x

namespace Ledger

variable {L L' : Ledger} {ctx : Context}

theorem contains_capture (L : Ledger) (x : SymbolId) (type : TypeRef) (origin : CaptureOrigin)
    (liveness : Liveness) : (L.capture x type origin liveness).captures.contains x := by
  rw [capture, CaptureSet.contains_insert, beq_self_eq_true, Bool.true_or]

theorem contains_newField (L : Ledger) (ctx : Context) (name : String) (type : TypeRef)
    (origin : CaptureOrigin) :
    (L.newField ctx name type origin).captures.contains L.nextSymbol := contains_capture ..

theorem contains_captureLocal (L : Ledger) (ctx : Context) (x : SymbolId) (type : TypeRef) :
    (L.captureLocal ctx x type).captures.contains x :=
  (dropIfCleared_grows ..).captures x (contains_capture ..)

theorem contains_captureResources (L : Ledger) (resources : List (SymbolId × TypeRef)) :
    ∀ r ∈ resources, (L.captureResources resources).captures.contains r.1 := by
  induction resources generalizing L with
  | nil => exact nofun
  | cons r resources ih =>
    have hfirst := contains_capture L r.1 r.2 .localVar .retained
    exact forall_mem_cons.mpr ⟨(captureResources_grows _ resources).captures r.1 hfirst, ih _⟩

namespace Backed

variable (h : L.Backed)

include h

/-- What only adds to the ledger, and to no scope. -/
theorem grow (hgrows : L.Grows L') (hscopes : L'.scopes = L.scopes) : L'.Backed where
  scopes x hx := hgrows.captures x (h.scopes x (hscopes ▸ hx))
  pendingJump x hx := hgrows.captures x (h.pendingJump x (hgrows.pendingJump ▸ hx))

theorem reserve (k : Nat) : (L.reserve k).Backed := h.grow (L.reserve_grows k) rfl

theorem enter {tag : Tag} (he : L.enter tag = .ok L') : L'.Backed := by
  refine h.grow (enter_grows he) ?_
  obtain ⟨tags, -, rfl⟩ := enter_ok he
  rfl

theorem enterAll {tags : List Tag} (he : L.enterAll tags = .ok L') : L'.Backed := by
  induction tags generalizing L with
  | nil =>
    cases he
    exact h
  | cons tag tags ih =>
    obtain ⟨L₁, hfirst, hrest⟩ := enterAll_ok he
    exact ih (h.enter hfirst) hrest

theorem newField (ctx : Context) (name : String) (type : TypeRef) (origin : CaptureOrigin) :
    (L.newField ctx name type origin).Backed := h.grow (newField_grows ..) rfl

theorem dropIfCleared {x : SymbolId} (hx : L.captures.contains x) (ctx : Context) (type : TypeRef) :
    (L.dropIfCleared ctx x type).Backed := by
  unfold Ledger.dropIfCleared
  split
  · unfold dropAtScopeEnd
    split
    · next scope scopes hscopes =>
      refine ⟨fun y hy => ?_, h.pendingJump⟩
      rcases mem_cons.mp hy with rfl | hy
      · exact hx
      · refine h.scopes y ?_
        rw [hscopes]
        exact hy
    · exact h
  · exact h

theorem captureLocal (ctx : Context) (x : SymbolId) (type : TypeRef) :
    (L.captureLocal ctx x type).Backed :=
  (h.grow (capture_grows ..) rfl).dropIfCleared (contains_capture ..) ctx type

theorem route {tag : Tag} {ops : List Op} (hroute : L.route ctx tag = .ok (ops, L')) :
    L'.Backed := by
  refine h.grow (route_grows hroute) ?_
  obtain ⟨exits, -, rfl⟩ := route_ok hroute
  rfl

theorem settle {cur ops : List Op} {g : GuardNames} {exits : List Tag}
    (hsettle : settleOps L ctx cur g exits = .ok (ops, L')) : L'.Backed := by
  refine h.grow (settleOps_grows hsettle) ?_
  obtain ⟨exits, -, rfl⟩ := settleOps_exits hsettle
  rfl

theorem pushScope : L.pushScope.Backed where
  scopes x hx := h.scopes x hx
  pendingJump := h.pendingJump

theorem popScope : L.popScope.Backed where
  scopes x hx := by
    refine h.scopes x ?_
    obtain ⟨scope, hscope, hx⟩ := mem_flatten.mp hx
    exact mem_flatten.mpr ⟨scope, mem_of_mem_tail hscope, hx⟩
  pendingJump := h.pendingJump

theorem declareGuard (ctx : Context) (resources : List (SymbolId × TypeRef)) :
    (L.declareGuard ctx resources).Backed := by
  refine h.grow (declareGuard_grows ..) ?_
  have hresources : ∀ L : Ledger, (L.captureResources resources).scopes = L.scopes := by
    induction resources with
    | nil => exact fun L => rfl
    | cons r resources ih => exact fun L => ih _
  exact hresources _

theorem nest {id : MachineId} {g : GuardNames} (hg : L.captures.contains g.pendingJump) :
    (L.nest id g).Backed where
  scopes := h.scopes
  pendingJump x hx := by
    cases hx
    exact hg

omit h in
theorem unnest (h : L'.Backed) (houter : L.Backed)
    (hcaptures : ∀ x, L.captures.contains x → L'.captures.contains x) : (L'.unnest L).Backed where
  scopes := h.scopes
  pendingJump x hx := hcaptures x (houter.pendingJump x hx)

end Backed

/-- The fields of a guard are fields. -/
theorem contains_declareGuard (L : Ledger) (ctx : Context) (resources : List (SymbolId × TypeRef)) :
    ∀ x ∈ L.guardNames.selector :: L.guardNames.inHandler :: L.guardNames.pending ::
      L.guardNames.pendingJump ::
      resources.map Prod.fst, (L.declareGuard ctx resources).captures.contains x := by
  set L₂ := Ledger.newField { L with nextMachine := L.nextMachine + 1 } ctx "selector" .int
      .selector with hL₂
  set L₃ := L₂.newField ctx "handling" .boolean .synthetic with hL₃
  set L₄ := (L₃.newSymbol "pending" .throwable).capture L₃.nextSymbol .throwable .synthetic
      .retained with hL₄
  set L₅ := L₄.newField ctx "pendingJump" .int .synthetic with hL₅
  have hinHandler : L₂.nextSymbol = L.guardNames.inHandler := nextSymbol_newField ..
  have hpending : L₃.nextSymbol = L.guardNames.pending := by
    rw [nextSymbol_newField, hL₂, size_symbols_newField]
    rfl
  have hpendingJump : L₄.nextSymbol = L.guardNames.pendingJump := by
    rw [nextSymbol_capture, nextSymbol_newSymbol, hL₃, size_symbols_newField, hL₂,
      size_symbols_newField]
    rfl
  have h₃ : L₂.Grows L₃ := newField_grows ..
  have h₄ : L₃.Grows L₄ := (newSymbol_grows ..).trans (capture_grows ..)
  have h₅ : L₄.Grows L₅ := newField_grows ..
  have hlast : L₅.Grows (L.declareGuard ctx resources) := captureResources_grows ..
  simp only [forall_mem_cons]
  refine ⟨?_, ?_, ?_, ?_, fun x hx => ?_⟩
  · exact (((h₃.trans h₄).trans h₅).trans hlast).captures _ (contains_newField ..)
  · exact hinHandler ▸ ((h₄.trans h₅).trans hlast).captures _ (contains_newField ..)
  · exact hpending ▸ (h₅.trans hlast).captures _ (contains_capture ..)
  · exact hpendingJump ▸ hlast.captures _ (contains_newField ..)
  · obtain ⟨r, hr, rfl⟩ := mem_map.mp hx
    exact contains_captureResources L₅ resources r hr

/-- So they are where the guard is entered, and so are its resources. -/
theorem contains_guard {resources : List LocalDecl} {xs : List SymbolId} {tag : Tag}
    (hxs : resources.map (fun d => d.name.symbol) = xs.map some)
    (h : ((L.declareGuard ctx (xs.zip (resources.map LocalDecl.type))).reserve 3).enter tag =
      .ok L') :
    ∀ x ∈ L.guardNames.selector :: L.guardNames.inHandler :: L.guardNames.pending ::
      L.guardNames.pendingJump :: xs,
      L'.captures.contains x := by
  have hlength : resources.length = xs.length := by simpa using congrArg List.length hxs
  have hfst : (xs.zip (resources.map LocalDecl.type)).map Prod.fst = xs :=
    map_fst_zip (by simp [hlength])
  have hfields := L.contains_declareGuard ctx (xs.zip (resources.map LocalDecl.type))
  rw [hfst] at hfields
  exact fun x hx => ((reserve_grows ..).trans (enter_grows h)).captures x (hfields x hx)

end Ledger

/-- What holds of all fields holds of the earlier ones. -/
theorem Ledger.Grows.kept {L L' : Ledger} {K : SymbolId → Prop} (h : L.Grows L')
    (hK : ∀ x, L'.captures.contains x → K x) : ∀ x, L.captures.contains x → K x :=
  fun x hx => hK x (h.captures x hx)

section Made

variable {ctx : Context} {L L' : Ledger} {cur : List Op} {ph : Phrase} {code : Code}

/-- **The fields that code drops or leaves tags in are fields**, whatever it is made of. -/
theorem Made.backed (h : Made ctx L cur ph code L') (hL : L.Backed) : L'.Backed := by
  induction h with
  | plain | nil | noBranch | noCases | noHandlers | noFinal => exact hL
  | declare => exact hL.captureLocal ..
  | emit _ _ henter => exact (hL.reserve 1).enter henter
  | emitAll _ _ _ hL₁ _ henter =>
    subst hL₁
    exact ((hL.newField ..).reserve 1).enter henter
  | block _ _ ih | loopStmt _ _ _ ih | switch _ _ _ _ ih | labeledLoop _ _ _ _ ih
  | synchronized _ _ _ _ ih
  | branch _ ih | whileLoop _ _ ih | doWhile _ _ ih | forLoop _ _ _ ih | forEach _ _ ih
  | opening _ ih | final _ ih =>
    exact ih hL
  | cond _ _ _ _ ihYes ihNo => exact ihNo (ihYes hL)
  | split _ _ _ _ _ henter ihYes ihNo => exact ((ihNo (ihYes hL)).reserve 1).enter henter
  | labeled _ _ _ _ henter ih => exact (ih (hL.reserve 1)).enter henter
  | ret hroute | brk _ hroute | cont _ hroute => exact hL.route hroute
  | tryCatch _ _ hxs hL₁ hguard hinner hfinal _ hsettle hend ihInner ihCode =>
    subst hL₁
    have hguards := ((hL.declareGuard ..).reserve 3).enter hguard
    have hfields := contains_guard hxs hguard
    simp only [forall_mem_cons] at hfields
    have hinside := ihInner (hguards.nest hfields.2.2.2.1)
    have houtside := (hinside.unnest hguards hinner.grows.captures).enter hfinal
    exact ((ihCode houtside).settle hsettle).enter hend
  | cons _ _ ihFirst ihRest | counting _ _ ihFirst ihRest
  | guarded _ _ ihFirst ihRest => exact ihRest (ihFirst hL)
  | scope _ ih => exact (ih hL.pushScope).popScope
  | each _ _ hL₁ _ _ ih =>
    subst hL₁
    exact ih (((hL.newField ..).dropIfCleared (contains_newField ..) ..).captureLocal ..)
  | loop henter _ htail ih => exact (ih ((hL.reserve _).enter henter)).enterAll htail
  | choice _ _ henter ih => exact (ih (hL.reserve _)).enter henter
  | case henter _ _ ihBody ihRest => exact ihRest (ihBody (hL.enter henter))
  | handler _ ih => exact ih (hL.captureLocal ..)
  | handlers _ henter _ _ ihBody ihRest => exact ihRest (ihBody ((hL.reserve 1).enter henter))

end Made

/-! ## Code -/

/-- What stands in a phrase is scoped and sees only what is kept, and its own expressions stand in
the body. -/
def Phrase.Shown (O : Origin) (m : Markers) : Phrase → Prop
  | stmt s | head _ s => s.Sees O.kept
  | stmts ss => Stmt.SeesAll O.kept ss
  | scope p => p.Shown O m
  | branch s => ∀ t ∈ s, t.Sees O.kept
  | counting _ init test update loc body =>
    (∀ e ∈ test, O.Stands m e) ∧ (∀ e ∈ update, O.Stands m e) ∧
      (Stmt.forLoop init test update body loc).Sees O.kept
  | each _ var iterable loc body =>
    O.Stands m iterable ∧ (Stmt.forEach var iterable body loc).Sees O.kept
  | loop shape _ body => EveryOp (O.Traces m) shape.start ∧ (∀ e ∈ shape.test, O.Speaks m e) ∧
      (∀ e ∈ shape.update, O.Stands m e ∧ ∀ x ∈ e.uses, O.kept x) ∧ body.Sees O.kept
  | choice selector cs => (∀ e ∈ selector :: cs.flatMap SwitchCase.labels, O.Stands m e) ∧
      (∀ x ∈ selector.uses, O.kept x) ∧ Stmt.SeesCases O.kept cs
  | cases _ cs => Stmt.SeesCases O.kept (cs.map Prod.fst)
  | opening resources body =>
    (∀ r ∈ resources, ∀ e ∈ r.2, O.Traces m (.assign r.1 e)) ∧ Stmt.SeesAll O.kept body
  | handler param _ body => O.kept param → Stmt.SeesAll O.kept body
  | handlers cs _ => Stmt.SeesCatches O.kept cs
  | guarded resources body cs _ => (∀ r ∈ resources, ∀ e ∈ r.2, O.Traces m (.assign r.1 e)) ∧
      Stmt.SeesAll O.kept body ∧ Stmt.SeesCatches O.kept cs
  | final body => ∀ ss ∈ body, Stmt.SeesAll O.kept ss

/-- The variables that a phrase leaves in force, or that its handlers set. -/
def Phrase.names : Phrase → List SymbolId
  | stmt s => s.names
  | stmts ss => Stmt.namesAll ss
  | cases _ cs => Stmt.namesCases (cs.map Prod.fst)
  | handlers _ hs | guarded _ _ _ hs => hs.map Handler.param
  | _ => []

section Made

variable {O : Origin} {m : Markers} {ctx : Context} {L L' : Ledger} {cur ops : List Op}
  {ph : Phrase}
  {code : Code}

open Origin

theorem traces_route (hL : L.Backed) (hK : ∀ x, L.captures.contains x → O.kept x) {tag : Tag}
    (h : L.route ctx tag = .ok (ops, L')) : EveryOp (O.Traces m) ops :=
  every_route traces_moves (fun x hx => traces_clear (hK x (hL.scopes x hx)))
    (fun x hx n => traces_assign (hK x (hL.pendingJump x hx)) (.literal (.int n))) h

theorem traces_settle (hL : L.Backed) (hK : ∀ x, L.captures.contains x → O.kept x)
    {g : Ledger.GuardNames} {exits : List Tag} (hpending : O.kept g.pending)
    (hjump : O.kept g.pendingJump) (h : settleOps L ctx cur g exits = .ok (ops, L')) :
    EveryOp (O.Traces m) ops := by
  refine every_settle traces_moves (fun x hx => traces_clear (hK x (hL.scopes x hx)))
    (fun x hx n => ?_)
    (fun x hx n yes => traces_cond (.waits hx hjump n) yes []) ?_ h
  · exact traces_assign (hK x (hL.pendingJump x hx)) (.literal (.int n))
  · exact traces_bare nofun (forall_mem_singleton.mpr hpending) rfl

theorem uses_of_asMarker {e arg : Expr} {kind : MarkerKind} (h : e.asMarker? m = some (kind, arg)) :
    ∀ x ∈ arg.uses, x ∈ e.uses := by
  obtain ⟨callee, rfl⟩ := call_of_asMarker? h
  exact fun x hx => mem_append_left _ hx

/-- The argument of a marker stands in the body. -/
theorem speaks_marker {e arg : Expr} {kind : MarkerKind} {loc : Location}
    (hs : ∀ t ∈ [Stmt.expr e loc], ∃ path, Lies O.body path t)
    (he : e.asMarker? m = some (kind, arg)) (harg : arg.findMarker? m = none)
    (hph : (Stmt.expr e loc).Sees O.kept) : O.Speaks m arg := by
  obtain ⟨path, hlies⟩ := hs _ mem_cons_self
  obtain ⟨vis, hscoped, hvis⟩ := hph
  have hordinary : (Stmt.expr e loc).ordinary m = [arg] := by rw [Stmt.ordinary, Stmt.marker?, he]
  exact .source ⟨⟨path, _, hlies, hordinary ▸ mem_cons_self⟩, harg⟩
    fun x hx => hvis x (hscoped x (uses_of_asMarker he x hx))

variable {K : SymbolId → Prop} {vis : List SymbolId}

theorem seesElse {no : Option Stmt} (h : Stmt.ScopedElse vis no) (hvis : ∀ x ∈ vis, K x) :
    ∀ t ∈ no, t.Sees K := by
  rintro t rfl
  exact ⟨vis, h, hvis⟩

theorem seesFinal {final : Option (List Stmt)}
    (h : Stmt.ScopedFinal vis final) (hvis : ∀ x ∈ vis, K x) : ∀ ss ∈ final, Stmt.SeesAll K ss := by
  rintro ss rfl
  exact ⟨vis, h, hvis⟩

theorem mem_flatten_of_head {scopes : List (List SymbolId)} {x : SymbolId}
    (h : x ∈ scopes.headD []) : x ∈ scopes.flatten := by
  cases scopes with
  | nil => cases h
  | cons => exact mem_append_left _ h

/-- A statement that stays in force only under a label. -/
theorem names_of_labels (hO : O.KeepsLabels) {s : Stmt} (hs : ∀ t ∈ [s], ∃ path, Lies O.body path t)
    (hdecl : ∀ d loc, s ≠ .declare d loc) : ∀ x ∈ s.names, O.kept x := by
  obtain ⟨path, hlies⟩ := hs s mem_cons_self
  cases s with
  | declare d loc => exact absurd rfl (hdecl d loc)
  | labeled label s loc => exact hO path label s loc hlies
  | _ => exact nofun

/-- What is known of the parts of a choice. -/
theorem shown_cond {test : Expr} {yes : Stmt} {no : Option Stmt} {loc : Location}
    (hs : ∀ t ∈ [Stmt.cond test yes no loc], ∃ path, Lies O.body path t)
    (hmarker : test.findMarker? m = none) (hph : (Stmt.cond test yes no loc).Sees O.kept) :
    O.Speaks m test ∧ (∀ t ∈ (Phrase.branch (some yes)).parts, ∃ path, Lies O.body path t) ∧
      (∀ t ∈ some yes, t.Sees O.kept) ∧ (∀ t ∈ (Phrase.branch no).parts, ∃ path,
        Lies O.body path t) ∧
      ∀ t ∈ no, t.Sees O.kept := by
  obtain ⟨vis, ⟨htest, hyes, hno⟩, hvis⟩ := hph
  have hchildren := forall_mem_cons.mp (forall_lies_children hs)
  refine ⟨.source (stands_of_lies hs rfl mem_cons_self hmarker) fun x hx => hvis x (htest x hx),
    forall_mem_singleton.mpr hchildren.1, fun t ht => ?_, hchildren.2, seesElse hno hvis⟩
  exact Option.mem_some.mp ht ▸ ⟨vis, hyes, hvis⟩

/-- **Every op of code is traced back to the body**, and all that the code leaves in force is kept,
if all fields are. -/
theorem Made.traces (hO : O.KeepsLabels) (h : Made ctx L cur ph code L')
    (hlies : ∀ s ∈ ph.parts, ∃ path, Lies O.body path s) (hph : ph.Shown O ctx.markers)
    (hL : L.Backed) (hK : ∀ x, L'.captures.contains x → O.kept x) :
    code.Every (O.Traces ctx.markers) ∧ ∀ x ∈ ph.names, O.kept x := by
  have hnone : ∀ x ∈ ([] : List SymbolId), O.kept x := forall_mem_nil _
  induction h with
  | @plain ctx L cur s hplain hdecl =>
    refine ⟨.now ⟨⟨forall_mem_nil _, hnone, ?_⟩, trivial⟩, names_of_labels hO hlies hdecl⟩
    rintro t ⟨⟩
    exact ⟨hplain, hph, .inl ⟨hlies s mem_cons_self, hdecl⟩⟩
  | @declare ctx L cur d loc x hx hinit =>
    obtain ⟨vis, hscoped, hvis⟩ := hph
    have hxK : O.kept x := hK x (contains_captureLocal ..)
    refine ⟨every_inits fun e he => traces_assign hxK
      (.source ?_ fun y hy => hvis y (hscoped.1 y ?_)),
      fun y hy => ?_⟩
    · exact stands_of_lies hlies rfl (Option.mem_toList.mpr he) (hinit e he)
    · rw [Option.mem_def.mp he]
      exact hy
    · have hy' : y ∈ d.name.symbol.toList := hy
      rw [hx] at hy'
      exact mem_singleton.mp hy' ▸ hxK
  | emit he harg =>
    have hspeaks := speaks_marker hlies he harg hph
    exact ⟨.append (.now ⟨traces_moves.setState _, traces_yield hspeaks, trivial⟩) .opened, hnone⟩
  | @emitAll ctx L cur e arg loc type x L₁ L' he harg _ hL₁ hx henter =>
    have hspeaks := speaks_marker hlies he harg hph
    subst hL₁ hx
    have hfield : O.kept L.nextSymbol :=
      hK _ (((reserve_grows ..).trans (enter_grows henter)).captures _ (contains_newField ..))
    refine ⟨.append (.append (.now ⟨?_, traces_moves.jump _, trivial⟩) .opened)
      (.now ⟨?_, ?_⟩), hnone⟩
    · exact traces_assign hfield hspeaks
    · exact ⟨traces_cond (.call rfl hfield _) _ _,
        ⟨traces_yield (.call rfl hfield _), trivial⟩, trivial⟩
    · split
      · exact ⟨traces_clear hfield, trivial⟩
      · trivial
  | block _ _ ih => exact ⟨(ih (forall_lies_children hlies) hph hL hK).1, hnone⟩
  | cond _ hmarker hyes hno ihYes ihNo =>
    obtain ⟨hspeaks, hyesLies, hyesSees, hnoLies, hnoSees⟩ := shown_cond hlies hmarker hph
    obtain ⟨hY, -⟩ := ihYes hyesLies hyesSees hL (hno.grows.kept hK)
    obtain ⟨hN, -⟩ := ihNo hnoLies hnoSees (hyes.backed hL) hK
    exact ⟨.now ⟨⟨traces_cond hspeaks _ _, hY.ops, hN.ops⟩, trivial⟩, hnone⟩
  | split _ hmarker hyes hno _ henter ihYes ihNo =>
    obtain ⟨hspeaks, hyesLies, hyesSees, hnoLies, hnoSees⟩ := shown_cond hlies hmarker hph
    have hK₂ := ((reserve_grows _ 1).trans (enter_grows henter)).kept hK
    obtain ⟨hY, -⟩ := ihYes hyesLies hyesSees hL (hno.grows.kept hK₂)
    obtain ⟨hN, -⟩ := ihNo hnoLies hnoSees (hyes.backed hL) hK₂
    exact ⟨every_split traces_moves (traces_cond hspeaks) hY hN, hnone⟩
  | loopStmt _ hloop _ ih =>
    refine ⟨(ih hlies hph hL hK).1, names_of_labels hO hlies ?_⟩
    rintro d loc rfl
    cases hloop
  | switch _ hselector hlabels _ ih =>
    obtain ⟨vis, ⟨hscoped, hcases⟩, hvis⟩ := hph
    refine ⟨(ih (forall_lies_children hlies) ⟨fun e he => ?_, fun x hx => hvis x (hscoped x hx),
      vis, hcases, hvis⟩ hL hK).1,
      hnone⟩
    exact stands_of_lies hlies rfl he ((forall_mem_cons.mpr ⟨hselector, hlabels⟩ :) e he)
  | labeledLoop _ _ _ _ ih =>
    exact ⟨(ih (forall_lies_children hlies) hph hL hK).1,
      names_of_labels hO hlies fun _ _ h => Stmt.noConfusion h⟩
  | labeled _ _ _ _ henter ih =>
    obtain ⟨hcode, -⟩ :=
      ih (forall_lies_children hlies) hph (hL.reserve 1) ((enter_grows henter).kept hK)
    exact ⟨(hcode.jump traces_moves _ _).append .opened,
      names_of_labels hO hlies fun _ _ h => Stmt.noConfusion h⟩
  | synchronized _ hmarker _ _ ih =>
    obtain ⟨vis, ⟨hlock, hbody⟩, hvis⟩ := hph
    obtain ⟨hcode, -⟩ := ih (forall_lies_children hlies) ⟨vis, hbody, hvis⟩ hL hK
    have hstands := stands_of_lies hlies rfl mem_cons_self hmarker
    refine ⟨.now ⟨⟨traces_bare (forall_mem_singleton.mpr (.source hstands ?_)) hnone rfl,
      hcode.ops⟩,
      trivial⟩, hnone⟩
    exact fun x hx => hvis x (hlock x hx)
  | ret hroute | brk _ hroute | cont _ hroute =>
    exact ⟨.now (traces_route hL ((route_grows hroute).kept hK) hroute), hnone⟩
  | @tryCatch ctx L cur resources stmts catches final loc xs hs inner Lin L₁ L₂ L₃ code L₄ ops L₅ L'
    _ hmarkers hxs hL₁
      hguard hinner hfinal hcode hsettle hend ihInner ihCode =>
    subst hL₁
    obtain ⟨vis, ⟨hresources, hbody, hcatches, hfinalScoped⟩, hvis⟩ := hph
    have hchildren := forall_mem_append.mp (forall_lies_children hlies)
    -- what is known inside the guard is known behind it
    have hK₄ := ((settleOps_grows hsettle).trans (enter_grows hend)).kept hK
    have hKin : ∀ x, Lin.captures.contains x → O.kept x := fun x hx =>
      hK₄ x (hcode.grows.captures x ((enter_grows hfinal).captures x hx))
    have hfields : ∀ x ∈ L.guardNames.selector :: L.guardNames.inHandler :: L.guardNames.pending ::
        L.guardNames.pendingJump :: xs, L₂.captures.contains x := contains_guard hxs hguard
    have hfieldsK := fun x hx => hKin x (hinner.grows.captures x (hfields x hx))
    have hguards := ((hL.declareGuard ..).reserve 3).enter hguard
    have hinside : Ledger.Backed (L₂.nest ⟨L.nextMachine⟩ L.guardNames) :=
      hguards.nest (hfields _ (by simp))
    have houtside := ((hinner.backed hinside).unnest hguards hinner.grows.captures).enter hfinal
    have hxsK : ∀ x ∈ xs, O.kept x := fun x hx => hfieldsK x (by simp [hx])
    have hresourceNames : ∀ x ∈ resources.flatMap LocalDecl.names, O.kept x := by
      intro x hx
      obtain ⟨d, hd, hx⟩ := mem_flatMap.mp hx
      have hmem : some x ∈ xs.map some := hxs ▸ mem_map.mpr ⟨d, hd, Option.mem_toList.mp hx⟩
      obtain ⟨y, hy, heq⟩ := mem_map.mp hmem
      exact Option.some.inj heq ▸ hxsK y hy
    have hinits : ∀ r ∈ xs.zip (resources.map LocalDecl.init), ∀ e ∈ r.2,
        O.Traces ctx.markers (.assign r.1 e) := by
      intro r hr e he
      obtain ⟨hr₁, hr₂⟩ := of_mem_zip hr
      obtain ⟨d, hd, heq⟩ := mem_map.mp hr₂
      have hinit : e ∈ d.init := heq ▸ he
      refine traces_assign (hxsK _ hr₁) (.source ?_ fun x hx => ?_)
      · exact stands_of_lies hlies rfl (mem_flatMap.mpr ⟨d, hd, Option.mem_toList.mpr hinit⟩)
          (hmarkers d hd e hinit)
      · refine Stmt.ScopedAll.uses hresources hvis hresourceNames d hd x ?_
        rw [Option.mem_def.mp hinit]
        exact hx
    have hsees := Stmt.forall_visible
        (fun x hx => hresourceNames x (LocalDecl.mem_namesAll.mp hx)) hvis
    obtain ⟨hinnerCode, hparams⟩ :=
      ihInner hchildren.1 ⟨hinits, ⟨_, hbody, hsees⟩, ⟨vis, hcatches, hvis⟩⟩ hinside hKin
    obtain ⟨hfinalCode, -⟩ := ihCode hchildren.2 (seesFinal hfinalScoped hvis) houtside hK₄
    have hsettled : EveryOp (O.Traces ctx.markers) ops :=
      traces_settle (hcode.backed houtside) hK₄ (hfieldsK _ (by simp))
        (hfieldsK _ (by simp)) hsettle
    refine ⟨every_tryCatch traces_moves (fun x hx l => traces_assign (hfieldsK x hx) (.literal l))
      (traces_bare (forall_mem_nil _) ?_ rfl) hinnerCode (hfinalCode.append (.now hsettled)), hnone⟩
    simp only [forall_mem_cons] at hfieldsK
    obtain ⟨hselector, hinHandler, hpending, hjump, -⟩ := hfieldsK
    simp only [Op.slots, forall_mem_cons]
    exact ⟨hselector, hinHandler, hpending, hjump, forall_mem_append.mpr ⟨hxsK, hparams⟩⟩
  | nil | noBranch | noCases | noHandlers | noFinal => exact ⟨.now trivial, hnone⟩
  | cons hhead htail ihHead ihTail =>
    obtain ⟨hs, hss⟩ := forall_mem_cons.mp hlies
    obtain ⟨hsees, hmoreSees⟩ := Stmt.SeesAll.cons hph
    obtain ⟨hcode, hfirst⟩ := ihHead (forall_mem_singleton.mpr hs) hsees hL (htail.grows.kept hK)
    obtain ⟨hmore, hrest⟩ := ihTail hss (hmoreSees hfirst) (hhead.backed hL) hK
    exact ⟨hcode.append hmore, forall_mem_append.mpr ⟨hrest, hfirst⟩⟩
  | scope hbody ih =>
    obtain ⟨hcode, -⟩ := ih hlies hph hL.pushScope hK
    refine ⟨hcode.append (.now ?_), hnone⟩
    split
    · trivial
    · refine every_clears fun x hx => traces_clear (hK x ((hbody.backed hL.pushScope).scopes x ?_))
      exact mem_flatten_of_head hx
  | branch _ ih | final _ ih => exact ⟨(ih hlies (hph _ rfl) hL hK).1, hnone⟩
  | whileLoop hmarker _ ih | doWhile hmarker _ ih =>
    obtain ⟨vis, ⟨htest, hbody⟩, hvis⟩ := hph
    have hstands := stands_of_lies hlies rfl mem_cons_self hmarker
    refine ⟨(ih (forall_lies_children hlies) ⟨trivial, fun e he => ?_, forall_mem_nil _, vis, hbody,
      hvis⟩ hL hK).1,
      hnone⟩
    exact Option.mem_some.mp he ▸ .source hstands fun x hx => hvis x (htest x hx)
  | forLoop htest hupdate _ ih =>
    refine ⟨(ih (forall_lies_children hlies) ⟨fun e he => ?_, fun e he => ?_, hph⟩ hL hK).1, hnone⟩
    · exact stands_of_lies hlies rfl (mem_append_left _ (Option.mem_toList.mpr he)) (htest e he)
    · exact stands_of_lies hlies rfl (mem_append_right _ he) (hupdate e he)
  | forEach hiterable _ ih =>
    have hstands := stands_of_lies hlies rfl mem_cons_self hiterable
    exact ⟨(ih (forall_lies_children hlies) ⟨hstands, hph⟩ hL hK).1, hnone⟩
  | counting hinit hloop ihInit ihLoop =>
    obtain ⟨htest, hupdate, vis, ⟨hscoped, htestScoped, hupdateScoped, hbody⟩, hvis⟩ := hph
    obtain ⟨hinitLies, hbodyLies⟩ := forall_mem_append.mp hlies
    obtain ⟨hcode, hfirst⟩ := ihInit hinitLies ⟨vis, hscoped, hvis⟩ hL (hloop.grows.kept hK)
    have hinner := Stmt.forall_visible hfirst hvis
    have htests : ∀ e ∈ _, O.Speaks _ e :=
      fun e he => .source (htest e he) fun x hx => hinner x (htestScoped x (by
      rw [Option.mem_def.mp he]
      exact hx))
    obtain ⟨hmore, -⟩ := ihLoop hbodyLies ⟨trivial, htests,
      fun e he => ⟨hupdate e he, fun x hx => hinner x
        (hupdateScoped x (Stmt.mem_usesOf.mpr ⟨e, he, hx⟩))⟩,
      _, hbody, hinner⟩ (hinit.backed hL) hK
    exact ⟨hcode.append hmore, hnone⟩
  | @each ctx L cur label var iterable loc b x type handle code L₁ L' hx _ hL₁ hhandle hloop ih =>
    subst hL₁ hhandle
    obtain ⟨hstands, vis, ⟨hiterable, -, hbody⟩, hvis⟩ := hph
    have hfield : O.kept L.nextSymbol :=
      hK _ (hloop.grows.captures _ (((dropIfCleared_grows ..).trans
      (captureLocal_grows ..)).captures _ (contains_newField ..)))
    have hvar : O.kept x := hK _ (hloop.grows.captures _ (contains_captureLocal ..))
    have hinner : ∀ y ∈ var.names ++ vis, O.kept y := by
      refine Stmt.forall_visible (fun y hy => ?_) hvis
      rw [LocalDecl.names, hx] at hy
      exact mem_singleton.mp hy ▸ hvar
    obtain ⟨hcode, -⟩ := ih hlies ⟨⟨traces_assign hvar (.call rfl hfield _), trivial⟩,
        fun e he => Option.mem_some.mp he ▸ .call rfl hfield _, forall_mem_nil _, _, hbody, hinner⟩
      (((hL.newField ..).dropIfCleared (contains_newField ..) ..).captureLocal ..) hK
    refine ⟨.append (.now ⟨traces_assign hfield (.iterator hstands ?_), trivial⟩) hcode, hnone⟩
    exact fun y hy => hvis y (hiterable y hy)
  | loop henter _ htail ih =>
    obtain ⟨hstart, htest, hupdate, hbody⟩ := hph
    obtain ⟨hcode, -⟩ :=
      ih hlies hbody ((hL.reserve _).enter henter) ((enterAll_grows htail).kept hK)
    exact ⟨every_loop traces_moves hcode hstart (fun e he yes => traces_cond (htest e he) yes [])
      fun e he => traces_update (hupdate e he).1 (hupdate e he).2 _, hnone⟩
  | @choice ctx L cur selector cases tags code L₁ L' htags _ henter ih =>
    subst htags
    obtain ⟨hstands, hselector, hcases⟩ := hph
    have hfirst := fst_zip_caseTags L cases
    have hbodies := parts_cases L (L.tagAt 0) selector cases
    obtain ⟨hcode, hleft⟩ :=
      ih (hbodies ▸ hlies) (show Stmt.SeesCases O.kept _ by rw [hfirst]; exact hcases)
        (hL.reserve _)
      ((enter_grows henter).kept hK)
    have hlabelled := hcases.labels (hfirst ▸ hleft)
    have harms : (armsOf (cases.zip (L.caseTags cases.length))).flatMap SwitchArm.labels =
        cases.flatMap SwitchCase.labels := by
      conv_rhs => rw [← hfirst, flatMap_map]
      rw [armsOf, flatMap_map]
    have hchoose : O.Traces ctx.markers
        (.switch selector (armsOf (cases.zip (L.caseTags cases.length)))) := by
      refine traces_bare ?_ hnone rfl
      rw [Op.exprs, harms]
      obtain ⟨hhead, hlabels⟩ := forall_mem_cons.mp hstands
      refine forall_mem_cons.mpr ⟨.source hhead hselector,
        fun e he => .source (hlabels e he) fun x hx => ?_⟩
      exact hlabelled x (Stmt.mem_usesOf.mpr ⟨e, he, hx⟩)
    exact ⟨(Code.Every.append (.now (every_choose traces_moves hchoose)) hcode).append .opened,
      hnone⟩
  | case henter hbody hrest ihBody ihRest =>
    obtain ⟨hbodyLies, hrestLies⟩ := forall_mem_append.mp hlies
    obtain ⟨-, hsees, hmoreSees⟩ := Stmt.SeesCases.cons hph
    obtain ⟨hcode, hfirst⟩ := ihBody hbodyLies hsees (hL.enter henter) (hrest.grows.kept hK)
    obtain ⟨hmore, hnext⟩ := ihRest hrestLies (hmoreSees hfirst) (hbody.backed (hL.enter henter)) hK
    exact ⟨(Code.Every.opened.append (hcode.jump traces_moves _ _)).append hmore,
      forall_mem_append.mpr ⟨hnext, hfirst⟩⟩
  | opening _ ih =>
    obtain ⟨hcode, -⟩ := ih hlies hph.2 hL hK
    exact ⟨(every_initOps hph.1).append hcode, hnone⟩
  | handler hbody ih =>
    have hparam := hK _ (hbody.grows.captures _ (contains_captureLocal ..))
    exact ⟨(ih hlies (hph hparam) (hL.captureLocal ..) hK).1, hnone⟩
  | @handlers ctx L cur param x types b cs hs code more L₁ L₂ L' hx henter hbody hrest
    ihBody ihRest =>
    obtain ⟨hbodyLies, hrestLies⟩ := forall_mem_append.mp hlies
    obtain ⟨hsees, hmoreSees⟩ := Stmt.SeesCatches.cons hph
    have hinside := (hL.reserve 1).enter henter
    have hparam : O.kept x := by
      cases hbody with
      | scope hhandler =>
        cases hhandler with
        | handler hstmts =>
          exact hK x (hrest.grows.captures x (hstmts.grows.captures x (contains_captureLocal ..)))
    obtain ⟨hcode, -⟩ := ihBody hbodyLies (fun hx' => hsees fun y hy => by
      rw [hx] at hy
      exact mem_singleton.mp hy ▸ hx') hinside (hrest.grows.kept hK)
    obtain ⟨hmore, hparams⟩ := ihRest hrestLies hmoreSees (hbody.backed hinside) hK
    exact ⟨(Code.Every.opened.append (hcode.finish traces_moves _)).append hmore,
      forall_mem_cons.mpr ⟨hparam, hparams⟩⟩
  | guarded hbody hhandlers ihBody ihHandlers =>
    obtain ⟨hbodyLies, hhandlersLies⟩ := forall_mem_append.mp hlies
    obtain ⟨hcode, -⟩ := ihBody hbodyLies ⟨hph.1, hph.2.1⟩ hL (hhandlers.grows.kept hK)
    obtain ⟨hmore, hparams⟩ := ihHandlers hhandlersLies hph.2.2 (hbody.backed hL) hK
    exact ⟨(hcode.finish traces_moves _).append hmore, hparams⟩

end Made

end Lowering

/-! ## Classes -/

open Lowering

namespace Procedure

variable {p : Procedure} {settings : Settings} {cls : GeneratorClass}

theorem initial_backed (symbols : SymbolTable) (params : List (SymbolId × TypeRef)) :
    ((Ledger.initial symbols).captureParams params).Backed := by
  obtain ⟨captures, heq⟩ := (Ledger.initial symbols).captureParams_eq params
  have hinitial : (Ledger.initial symbols).Backed := ⟨nofun, nofun⟩
  exact hinitial.grow (Ledger.captureParams_grows ..) (by rw [heq])

/-- The parameters are fields. -/
theorem params_captured (b : Blueprint p settings cls) :
    ∀ x ∈ p.resolve.1.paramNames, b.known.captures.contains x := by
  intro x hx
  obtain ⟨q, hq, hx⟩ := mem_flatMap.mp hx
  have hmem : some x ∈ b.params.map some :=
    b.params_eq ▸ mem_map.mpr ⟨q, hq, Option.mem_toList.mp hx⟩
  obtain ⟨y, hy, heq⟩ := mem_map.mp hmem
  cases heq
  have hlength : p.resolve.1.params.length = b.params.length := by
    simpa using congrArg List.length b.params_eq
  have hfst : (b.params.zip (p.resolve.1.params.map Param.type)).map Prod.fst = b.params :=
    map_fst_zip (by simp [hlength])
  obtain ⟨r, hr, rfl⟩ := mem_map.mp (hfst ▸ hy)
  exact b.made.grows.captures _ (Ledger.contains_captureParams _ _ r hr)

/-- A field, or a name in force behind a label. -/
def Keeps (p : Procedure) (captures : CaptureSet) (x : SymbolId) : Prop :=
  captures.contains x ∨ ∃ path label s loc, Lies p.resolve.1.body path (.labeled label s loc) ∧
    x ∈ s.names

/-- The body of a procedure, whose fields are kept. -/
def origin (p : Procedure) (captures : CaptureSet) : Origin where
  body := p.resolve.1.body
  kept := p.Keeps captures

end Procedure

/-- **Every op of a class is traced back to the procedure.** -/
theorem Blueprint.traced {p : Procedure} {settings : Settings} {cls : GeneratorClass}
    (b : Blueprint p settings cls) :
    cls.advance.Every ((p.origin cls.captures).Traces settings.markers) := by
  have hcaptures : cls.captures = b.known.captures := congrArg GeneratorClass.captures b.class_eq
  rw [hcaptures]
  have hlabels : (p.origin b.known.captures).KeepsLabels :=
    fun path label s loc hs x hx => .inr ⟨path, label, s, loc, hs, hx⟩
  have hvisible : ∀ x ∈ p.resolve.1.paramNames.reverse, p.Keeps b.known.captures x :=
    fun x hx => .inl (Procedure.params_captured b x (mem_reverse.mp hx))
  obtain ⟨hcode, -⟩ :=
    b.made.traces hlabels (fun s hs => ⟨[], .top hs⟩) ⟨_, p.resolve_scoped.2, hvisible⟩
    (Procedure.initial_backed ..) fun x hx => .inl hx
  rw [congrArg GeneratorClass.advance b.class_eq]
  exact (hcode.finish Origin.traces_moves []).machine _ _

end Resumable
