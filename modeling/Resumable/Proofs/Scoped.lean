import Mathlib.Data.List.Nodup
import Resumable.Proofs.Writes

/-!
# Resolved trees are well scoped

Resolution gives every declaration a variable of its own and lets uses see declarations that are in
force only.

* `Stmt.declares` are the variables that are declared inside a statement, and `Stmt.names` those
  that stay in force behind it;
* `Stmt.Scoped` says that a statement uses what is visible, and declares what is not;
* `Stmt.resolve_scoped`: a resolved statement is scoped, and declares the variables in order.
-/

namespace Resumable

open List

/-- The variable of a declaration. -/
def LocalDecl.names (d : LocalDecl) : List SymbolId := d.name.symbol.toList

namespace Stmt

/-! ## Declarations -/

/-- The variables that stay in force behind a statement; a label opens no scope. -/
def names : Stmt → List SymbolId
  | declare d _ => d.names
  | labeled _ body _ => names body
  | _ => []

/-- The variables that stay in force behind statements, the latest first. -/
def namesAll : List Stmt → List SymbolId
  | [] => []
  | s :: ss => namesAll ss ++ s.names

mutual

/-- The variables that are declared inside a statement, in order. -/
def declares : Stmt → List SymbolId
  | declare d _ => d.names
  | block body _ => declaresAll body
  | cond _ yes no _ => declares yes ++ declaresElse no
  | whileLoop _ body _ => declares body
  | doWhile body _ _ => declares body
  | forLoop init _ _ body _ => declaresAll init ++ declares body
  | forEach var _ body _ => var.names ++ declares body
  | switch _ cases _ => declaresCases cases
  | tryCatch resources body catches final _ =>
    resources.flatMap LocalDecl.names ++ declaresAll body ++ declaresCatches catches ++
      declaresFinal final
  | labeled _ body _ => declares body
  | synchronized _ body _ => declaresAll body
  | empty _ | expr _ _ | ret _ _ | brk _ _ | cont _ _ | raise _ _ => []

/-- The variables that are declared inside statements, in order. -/
def declaresAll : List Stmt → List SymbolId
  | [] => []
  | s :: ss => declares s ++ declaresAll ss

/-- The variables that are declared inside a branch that may be missing. -/
def declaresElse : Option Stmt → List SymbolId
  | none => []
  | some s => declares s

/-- The variables that are declared inside final code that may be missing. -/
def declaresFinal : Option (List Stmt) → List SymbolId
  | none => []
  | some body => declaresAll body

/-- The variables that are declared inside cases, in order. -/
def declaresCases : List SwitchCase → List SymbolId
  | [] => []
  | .mk _ _ body :: cs => declaresAll body ++ declaresCases cs

/-- The variables that are declared inside handlers, in order. -/
def declaresCatches : List CatchClause → List SymbolId
  | [] => []
  | .mk param _ body :: cs => param.symbol.toList ++ declaresAll body ++ declaresCatches cs

end

end Stmt

/-! ## Scoping -/

/-- An occurrence that declares a variable which is not visible yet. -/
def Ident.Fresh (vis : List SymbolId) (x : Ident) : Prop := ∃ id, x.symbol = some id ∧ id ∉ vis

/-- The declaration uses what is visible, and its variable is not. -/
def LocalDecl.Scoped (vis : List SymbolId) (d : LocalDecl) : Prop :=
  (∀ x ∈ usesOf? d.init, x ∈ vis) ∧ d.name.Fresh vis

/-- Declarations one after the other. -/
def LocalDecl.ScopedAll (vis : List SymbolId) : List LocalDecl → Prop
  | [] => True
  | d :: ds => d.Scoped vis ∧ ScopedAll (d.names ++ vis) ds

/-- The variables of declarations, the latest first. -/
def LocalDecl.namesAll : List LocalDecl → List SymbolId
  | [] => []
  | d :: ds => namesAll ds ++ d.names

namespace Stmt

mutual

/-- The statement uses what is visible, and declares what is not. -/
def Scoped (vis : List SymbolId) : Stmt → Prop
  | empty _ => True
  | expr e _ => ∀ x ∈ e.uses, x ∈ vis
  | declare d _ => d.Scoped vis
  | block body _ => ScopedAll vis body
  | cond test yes no _ => (∀ x ∈ test.uses, x ∈ vis) ∧ Scoped vis yes ∧ ScopedElse vis no
  | whileLoop test body _ => (∀ x ∈ test.uses, x ∈ vis) ∧ Scoped vis body
  | doWhile body test _ => (∀ x ∈ test.uses, x ∈ vis) ∧ Scoped vis body
  | forLoop init test update body _ =>
    ScopedAll vis init ∧ (∀ x ∈ usesOf? test, x ∈ namesAll init ++ vis) ∧
      (∀ x ∈ usesOf update, x ∈ namesAll init ++ vis) ∧ Scoped (namesAll init ++ vis) body
  | forEach var iterable body _ =>
    (∀ x ∈ iterable.uses, x ∈ vis) ∧ var.Scoped vis ∧ Scoped (var.names ++ vis) body
  | switch selector cases _ => (∀ x ∈ selector.uses, x ∈ vis) ∧ ScopedCases vis cases
  | tryCatch resources body catches final _ =>
    LocalDecl.ScopedAll vis resources ∧ ScopedAll (LocalDecl.namesAll resources ++ vis) body ∧
      ScopedCatches vis catches ∧ ScopedFinal vis final
  | labeled _ body _ => Scoped vis body
  | synchronized lock body _ => (∀ x ∈ lock.uses, x ∈ vis) ∧ ScopedAll vis body
  | ret value _ => ∀ x ∈ usesOf? value, x ∈ vis
  | brk _ _ => True
  | cont _ _ => True
  | raise value _ => ∀ x ∈ value.uses, x ∈ vis

/-- Statements one after the other. -/
def ScopedAll (vis : List SymbolId) : List Stmt → Prop
  | [] => True
  | s :: ss => Scoped vis s ∧ ScopedAll (names s ++ vis) ss

/-- A branch that may be missing. -/
def ScopedElse (vis : List SymbolId) : Option Stmt → Prop
  | none => True
  | some s => Scoped vis s

/-- Final code that may be missing. -/
def ScopedFinal (vis : List SymbolId) : Option (List Stmt) → Prop
  | none => True
  | some body => ScopedAll vis body

/-- Cases one after the other; each sees what those before it declare. -/
def ScopedCases (vis : List SymbolId) : List SwitchCase → Prop
  | [] => True
  | .mk labels _ body :: cs =>
    (∀ x ∈ usesOf labels, x ∈ vis) ∧ ScopedAll vis body ∧ ScopedCases (namesAll body ++ vis) cs

/-- Handlers, none of which sees another. -/
def ScopedCatches (vis : List SymbolId) : List CatchClause → Prop
  | [] => True
  | .mk param _ body :: cs =>
    param.Fresh vis ∧ ScopedAll (param.symbol.toList ++ vis) body ∧ ScopedCatches vis cs

end

end Stmt

/-! ## What is written and declared -/

mutual

/-- What is written counts as used. -/
theorem Expr.writes_uses (e : Expr) : ∀ x ∈ e.writes, x ∈ e.uses := by
  cases e with
  | literal | ident x => exact nofun
  | unary op e => exact Expr.writes_uses e
  | binary op a b =>
    intro x hx
    exact mem_append.mpr ((mem_append.mp hx).imp (Expr.writes_uses a x) (Expr.writes_uses b x))
  | assign target op e =>
    intro x hx
    exact mem_append.mpr ((mem_append.mp hx).imp_right (Expr.writes_uses e x))
  | increment => exact fun x hx => hx
  | call f args => exact writesOf_uses args
  | method e name args =>
    intro x hx
    exact mem_append.mpr ((mem_append.mp hx).imp (Expr.writes_uses e x) (writesOf_uses args x))

theorem writesOf_uses (es : List Expr) : ∀ x ∈ writesOf es, x ∈ usesOf es := by
  cases es with
  | nil => exact nofun
  | cons e es =>
    intro x hx
    exact mem_append.mpr ((mem_append.mp hx).imp (Expr.writes_uses e x) (writesOf_uses es x))

end

theorem writesOf?_uses (e : Option Expr) : ∀ x ∈ writesOf? e, x ∈ usesOf? e := by
  cases e with
  | none => exact nofun
  | some e => exact e.writes_uses

theorem LocalDecl.mem_namesAll {ds : List LocalDecl} {x : SymbolId} :
    x ∈ namesAll ds ↔ x ∈ ds.flatMap LocalDecl.names := by
  induction ds with
  | nil => rfl
  | cons d ds ih => rw [namesAll, flatMap_cons, mem_append, mem_append, ih, or_comm]

namespace Stmt

/-- What stays in force was declared. -/
theorem names_declares (s : Stmt) : ∀ x ∈ s.names, x ∈ s.declares := by
  cases s with
  | declare => exact fun x hx => hx
  | labeled label body => exact names_declares body
  | _ => exact nofun

theorem namesAll_declares (ss : List Stmt) : ∀ x ∈ namesAll ss, x ∈ declaresAll ss := by
  induction ss with
  | nil => exact nofun
  | cons s ss ih =>
    intro x hx
    exact mem_append.mpr ((mem_append.mp hx).symm.imp (names_declares s x) (ih x))

end Stmt

/-! ## Tables that grow -/

/-- The table takes in these variables, in order, which are variables of the source. -/
structure SymbolTable.Adds (t t' : SymbolTable) (xs : List SymbolId) : Prop where
  ids : xs = (List.range' t.size xs.length).map SymbolId.mk
  size : t'.size = t.size + xs.length
  old : ∀ x : SymbolId, x.index < t.size → t'.get? x = t.get? x
  new : ∀ x ∈ xs, ∃ info, t'.get? x = some info ∧ info.kind ≠ .synthetic

namespace SymbolTable.Adds

variable {t t₁ t₂ : SymbolTable} {xs ys : List SymbolId}

theorem refl (t : SymbolTable) : t.Adds t [] := ⟨rfl, rfl, fun _ _ => rfl, fun _ hx => by cases hx⟩

/-- New variables get the next free numbers. -/
theorem lt (h : t.Adds t₁ xs) : ∀ x ∈ xs, t.size ≤ x.index ∧ x.index < t₁.size := by
  intro x hx
  rw [h.ids, mem_map] at hx
  obtain ⟨i, hi, rfl⟩ := hx
  rw [h.size]
  exact mem_range'_1.mp hi

theorem trans (h : t.Adds t₁ xs) (h' : t₁.Adds t₂ ys) : t.Adds t₂ (xs ++ ys) where
  ids := by
    rw [length_append, ← List.range'_append_1, map_append, ← h.ids, ← h.size, ← h'.ids]
  size := by rw [h'.size, h.size, length_append, Nat.add_assoc]
  old := fun x hx => by
    rw [h'.old x (by rw [h.size]; omega), h.old x hx]
  new := by
    intro x hx
    rcases mem_append.mp hx with hx | hx
    · rw [h'.old x (h.lt x hx).2]
      exact h.new x hx
    · exact h'.new x hx

theorem declare (t : SymbolTable) (name : String) (type : TypeRef) {kind : SymbolKind}
    (hkind : kind ≠ .synthetic) : t.Adds (t.declare name type kind).2 [⟨t.size⟩] where
  ids := rfl
  size := Array.size_push ..
  old := fun x hx => Array.getElem?_push_lt .. |>.trans (Array.getElem?_eq_getElem hx).symm
  new := by
    intro x hx
    rw [mem_singleton.mp hx]
    exact ⟨_, Array.getElem?_push_size .., hkind⟩

/-- No variable is declared twice. -/
theorem nodup (h : t.Adds t₁ xs) : xs.Nodup := by
  rw [h.ids]
  refine List.Nodup.map (fun i j hij => ?_) nodup_range'
  exact SymbolId.mk.inj hij

end SymbolTable.Adds

/-! ## Resolution -/

namespace Scope

/-- The variables that names denote, the latest first. -/
def visible (s : Scope) : List SymbolId := s.names.map Prod.snd

/-- All visible variables are in the table. -/
def Sound (s : Scope) : Prop := ∀ x ∈ s.visible, x.index < s.symbols.size

/-- From one scope to a later one: variables that come into force, and all that are declared. -/
structure Steps (s : Scope) (vars declared : List SymbolId) (s' : Scope) : Prop where
  visible : s'.visible = vars ++ s.visible
  adds : s.symbols.Adds s'.symbols declared
  vars : ∀ x ∈ vars, x ∈ declared

namespace Steps

variable {s s₁ s₂ : Scope} {xs ys ds es : List SymbolId}

theorem refl (s : Scope) : s.Steps [] [] s := ⟨rfl, .refl _, fun _ hx => by cases hx⟩

theorem trans (h : s.Steps xs ds s₁) (h' : s₁.Steps ys es s₂) :
    s.Steps (ys ++ xs) (ds ++ es) s₂ where
  visible := by rw [h'.visible, h.visible, List.append_assoc]
  adds := h.adds.trans h'.adds
  vars := fun x hx => mem_append.mpr ((mem_append.mp hx).symm.imp (h.vars x) (h'.vars x))

theorem sound (h : s.Steps xs ds s₁) (hs : s.Sound) : s₁.Sound := by
  intro x hx
  rw [h.visible] at hx
  rcases mem_append.mp hx with hx | hx
  · exact (h.adds.lt x (h.vars x hx)).2
  · have hlt := hs x hx
    have hsize := h.adds.size
    omega

/-- After a scope of their own, the variables are no more in force. -/
theorem within (h : s.Steps xs ds s₁) : s.Steps [] ds ⟨s.names, s₁.symbols⟩ :=
  ⟨rfl, h.adds, fun _ hx => by cases hx⟩

end Steps

theorem define_steps (s : Scope) (name : String) (type : TypeRef) {kind : SymbolKind}
    (hkind : kind ≠ .synthetic) :
    s.Steps [(define name type kind s).1] [(define name type kind s).1]
      (define name type kind s).2 :=
  ⟨rfl, .declare s.symbols name type hkind, fun _ hx => hx⟩

/-- A new variable is not visible yet. -/
theorem define_fresh {s : Scope} (hs : s.Sound) (name : String) (type : TypeRef)
    (kind : SymbolKind) :
    (define name type kind s).1 ∉ s.visible := fun hmem => Nat.lt_irrefl _ (hs _ hmem)

end Scope

theorem Ident.resolve_uses (names : List (String × SymbolId)) (x : Ident) :
    ∀ y ∈ (x.resolve names).symbol.toList, y ∈ names.map Prod.snd := by
  intro y hy
  have hlookup : names.lookup x.name = some y := Option.mem_toList.mp hy
  clear hy
  induction names with
  | nil => cases hlookup
  | cons n names ih =>
    obtain ⟨name, id⟩ := n
    rw [lookup_cons] at hlookup
    split at hlookup
    · cases hlookup
      exact mem_cons_self
    · exact mem_cons_of_mem _ (ih hlookup)

mutual

/-- A resolved expression uses visible variables only. -/
theorem Expr.resolve_uses (names : List (String × SymbolId)) (e : Expr) :
    ∀ x ∈ (e.resolve names).uses, x ∈ names.map Prod.snd := by
  cases e with
  | literal => exact nofun
  | ident x => exact x.resolve_uses names
  | unary op e => exact Expr.resolve_uses names e
  | binary op a b =>
    intro x hx
    exact (mem_append.mp hx).elim (Expr.resolve_uses names a x) (Expr.resolve_uses names b x)
  | assign target op e =>
    intro x hx
    exact (mem_append.mp hx).elim (target.resolve_uses names x) (Expr.resolve_uses names e x)
  | increment target => exact target.resolve_uses names
  | call f args => exact Expr.resolveAll_uses names args
  | method e name args =>
    intro x hx
    exact (mem_append.mp hx).elim (Expr.resolve_uses names e x) (Expr.resolveAll_uses names args x)

theorem Expr.resolveAll_uses (names : List (String × SymbolId)) (es : List Expr) :
    ∀ x ∈ usesOf (Expr.resolveAll names es), x ∈ names.map Prod.snd := by
  cases es with
  | nil => exact nofun
  | cons e es =>
    intro x hx
    exact (mem_append.mp hx).elim (Expr.resolve_uses names e x) (Expr.resolveAll_uses names es x)

end

theorem mapM_resolveHere (es : List Expr) (s : Scope) :
    es.mapM Expr.resolveHere s = (Expr.resolveAll s.names es, s) := by
  induction es with
  | nil => rfl
  | cons e es ih =>
    rw [mapM_cons]
    show ((e.resolve s.names :: (es.mapM Expr.resolveHere s).1), (es.mapM Expr.resolveHere s).2) = _
    rw [ih]
    rfl

theorem resolve_uses? (names : List (String × SymbolId)) (e : Option Expr) :
    ∀ x ∈ usesOf? (e.map (Expr.resolve names)), x ∈ names.map Prod.snd := by
  cases e with
  | none => exact nofun
  | some e => exact e.resolve_uses names

theorem LocalDecl.resolve_eq (d : LocalDecl) (s : Scope) :
    d.resolve s = (⟨⟨d.name.name, some (Scope.define d.name.name d.type .localVar s).1⟩, d.type,
      d.init.map (Expr.resolve s.names)⟩, (Scope.define d.name.name d.type .localVar s).2) := by
  obtain ⟨name, type, init⟩ := d
  cases init with
  | none | some => rfl

theorem LocalDecl.mapM_resolve_cons (d : LocalDecl) (ds : List LocalDecl) (s : Scope) :
    (d :: ds).mapM LocalDecl.resolve s =
    ((d.resolve s).1 :: (ds.mapM LocalDecl.resolve (d.resolve s).2).1,
        (ds.mapM LocalDecl.resolve (d.resolve s).2).2) := by
  rw [mapM_cons]
  rfl

variable {s : Scope}

theorem LocalDecl.resolve_scoped (d : LocalDecl) (hs : s.Sound) :
    s.Steps (d.resolve s).1.names (d.resolve s).1.names (d.resolve s).2 ∧
      (d.resolve s).1.Scoped s.visible := by
  rw [d.resolve_eq s]
  exact ⟨s.define_steps _ _ (by decide), resolve_uses? s.names d.init, _, rfl,
    Scope.define_fresh hs _ _ _⟩

theorem LocalDecl.resolveAll_scoped (ds : List LocalDecl) (hs : s.Sound) :
    s.Steps (LocalDecl.namesAll (ds.mapM LocalDecl.resolve s).1)
        ((ds.mapM LocalDecl.resolve s).1.flatMap LocalDecl.names) (ds.mapM LocalDecl.resolve s).2 ∧
      LocalDecl.ScopedAll s.visible (ds.mapM LocalDecl.resolve s).1 := by
  induction ds generalizing s with
  | nil => exact ⟨.refl s, trivial⟩
  | cons d ds ih =>
    obtain ⟨hsteps, hscoped⟩ := d.resolve_scoped hs
    obtain ⟨hsteps', hscoped'⟩ := ih (hsteps.sound hs)
    rw [LocalDecl.mapM_resolve_cons]
    exact ⟨hsteps.trans hsteps', hscoped, hsteps.visible ▸ hscoped'⟩

namespace Stmt

/-- The variables of cases that are in force at the end of the switch, the latest first. -/
def namesCases : List SwitchCase → List SymbolId
  | [] => []
  | .mk _ _ body :: cs => namesCases cs ++ namesAll body

theorem resolve_forLoop (init : List Stmt) (test : Option Expr) (update : List Expr) (body : Stmt)
    (loc : Location) (s : Scope) :
    resolve (forLoop init test update body loc) s =
      (forLoop (resolveAll init s).1 (test.map (Expr.resolve (resolveAll init s).2.names))
        (Expr.resolveAll (resolveAll init s).2.names update)
          (resolve body (resolveAll init s).2).1 loc,
        ⟨s.names, (resolve body (resolveAll init s).2).2.symbols⟩) := by
  have hupdate := mapM_resolveHere update (resolveAll init s).2
  cases test with
  | none | some =>
    show (forLoop _ _ (update.mapM Expr.resolveHere (resolveAll init s).2).1
      (resolve body (update.mapM Expr.resolveHere (resolveAll init s).2).2).1 loc, Scope.mk s.names
      (resolve body (update.mapM Expr.resolveHere (resolveAll init s).2).2).2.symbols) = _
    rw [hupdate]
    rfl

theorem resolveCases_cons (labels : List Expr) (isDefault : Bool) (body : List Stmt)
    (cs : List SwitchCase) (s : Scope) :
    resolveCases (.mk labels isDefault body :: cs) s =
      (.mk (Expr.resolveAll s.names labels) isDefault (resolveAll body s).1 ::
        (resolveCases cs (resolveAll body s).2).1, (resolveCases cs (resolveAll body s).2).2) := by
  have hcase : resolveCase (.mk labels isDefault body) s =
      (.mk (Expr.resolveAll s.names labels) isDefault (resolveAll body s).1,
        (resolveAll body s).2) := by
    show (SwitchCase.mk (labels.mapM Expr.resolveHere s).1 isDefault
      (resolveAll body (labels.mapM Expr.resolveHere s).2).1,
      (resolveAll body (labels.mapM Expr.resolveHere s).2).2) = _
    rw [mapM_resolveHere]
  show ((resolveCase (.mk labels isDefault body) s).1 ::
    (resolveCases cs (resolveCase (.mk labels isDefault body) s).2).1,
    (resolveCases cs (resolveCase (.mk labels isDefault body) s).2).2) = _
  rw [hcase]

mutual

/-- **Resolved statements are scoped**, and the table takes in what they declare. -/
theorem resolve_scoped (a : Stmt) {s : Scope} (hs : s.Sound) :
    s.Steps (resolve a s).1.names (resolve a s).1.declares (resolve a s).2 ∧
      (resolve a s).1.Scoped s.visible := by
  cases a with
  | empty | brk | cont => exact ⟨.refl s, trivial⟩
  | expr e | raise e => exact ⟨.refl s, e.resolve_uses s.names⟩
  | declare d => exact d.resolve_scoped hs
  | block body =>
    obtain ⟨hsteps, hscoped⟩ := resolveAll_scoped body hs
    exact ⟨hsteps.within, hscoped⟩
  | cond test yes no =>
    obtain ⟨hsteps, hscoped⟩ := resolve_scoped yes hs
    obtain ⟨hsteps', hscoped'⟩ := resolveElse_scoped no (hsteps.within.sound hs)
    exact ⟨hsteps.within.trans hsteps', test.resolve_uses s.names, hscoped, hscoped'⟩
  | whileLoop test body | doWhile body test =>
    obtain ⟨hsteps, hscoped⟩ := resolve_scoped body hs
    exact ⟨hsteps.within, test.resolve_uses s.names, hscoped⟩
  | forLoop init test update body =>
    obtain ⟨hsteps, hscoped⟩ := resolveAll_scoped init hs
    obtain ⟨hsteps', hscoped'⟩ := resolve_scoped body (hsteps.sound hs)
    rw [resolve_forLoop]
    refine ⟨(hsteps.trans hsteps').within, hscoped, ?_, ?_, ?_⟩
    · rw [← hsteps.visible]
      exact resolve_uses? _ test
    · rw [← hsteps.visible]
      exact Expr.resolveAll_uses _ update
    · rw [← hsteps.visible]
      exact hscoped'
  | forEach var iterable body =>
    obtain ⟨hsteps, hscoped⟩ := var.resolve_scoped hs
    obtain ⟨hsteps', hscoped'⟩ := resolve_scoped body (hsteps.sound hs)
    exact ⟨(hsteps.trans hsteps').within, iterable.resolve_uses s.names, hscoped,
      hsteps.visible ▸ hscoped'⟩
  | switch selector cases =>
    obtain ⟨hsteps, hscoped⟩ := resolveCases_scoped cases hs
    exact ⟨hsteps.within, selector.resolve_uses s.names, hscoped⟩
  | tryCatch resources body catches final =>
    obtain ⟨hrs, hrsScoped⟩ := LocalDecl.resolveAll_scoped resources hs
    obtain ⟨hbody, hbodyScoped⟩ := resolveAll_scoped body (hrs.sound hs)
    -- handlers and final code do not see the resources
    have hguarded := (hrs.trans hbody.within).within
    obtain ⟨hcatches, hcatchesScoped⟩ := resolveCatches_scoped catches (hguarded.sound hs)
    obtain ⟨hfinal, hfinalScoped⟩ := resolveFinal_scoped final (hcatches.sound (hguarded.sound hs))
    rw [hcatches.visible] at hfinalScoped
    exact ⟨(hguarded.trans hcatches).trans hfinal, hrsScoped, hrs.visible ▸ hbodyScoped,
      hcatchesScoped, hfinalScoped⟩
  | labeled label body => exact resolve_scoped body hs
  | synchronized lock body =>
    obtain ⟨hsteps, hscoped⟩ := resolveAll_scoped body hs
    exact ⟨hsteps.within, lock.resolve_uses s.names, hscoped⟩
  | ret value =>
    cases value with
    | none => exact ⟨.refl s, fun x hx => by cases hx⟩
    | some e => exact ⟨.refl s, e.resolve_uses s.names⟩

theorem resolveAll_scoped (ss : List Stmt) {s : Scope} (hs : s.Sound) :
    s.Steps (namesAll (resolveAll ss s).1) (declaresAll (resolveAll ss s).1) (resolveAll ss s).2 ∧
      ScopedAll s.visible (resolveAll ss s).1 := by
  cases ss with
  | nil => exact ⟨.refl s, trivial⟩
  | cons a ss =>
    obtain ⟨hsteps, hscoped⟩ := resolve_scoped a hs
    obtain ⟨hsteps', hscoped'⟩ := resolveAll_scoped ss (hsteps.sound hs)
    exact ⟨hsteps.trans hsteps', hscoped, hsteps.visible ▸ hscoped'⟩

theorem resolveElse_scoped (no : Option Stmt) {s : Scope} (hs : s.Sound) :
    s.Steps [] (declaresElse (resolveElse no s).1) (resolveElse no s).2 ∧
      ScopedElse s.visible (resolveElse no s).1 := by
  cases no with
  | none => exact ⟨.refl s, trivial⟩
  | some a =>
    obtain ⟨hsteps, hscoped⟩ := resolve_scoped a hs
    exact ⟨hsteps.within, hscoped⟩

theorem resolveFinal_scoped (final : Option (List Stmt)) {s : Scope} (hs : s.Sound) :
    s.Steps [] (declaresFinal (resolveFinal final s).1) (resolveFinal final s).2 ∧
      ScopedFinal s.visible (resolveFinal final s).1 := by
  cases final with
  | none => exact ⟨.refl s, trivial⟩
  | some body =>
    obtain ⟨hsteps, hscoped⟩ := resolveAll_scoped body hs
    exact ⟨hsteps.within, hscoped⟩

theorem resolveCases_scoped (cs : List SwitchCase) {s : Scope} (hs : s.Sound) :
    s.Steps (namesCases (resolveCases cs s).1) (declaresCases (resolveCases cs s).1)
      (resolveCases cs s).2 ∧
      ScopedCases s.visible (resolveCases cs s).1 := by
  cases cs with
  | nil => exact ⟨.refl s, trivial⟩
  | cons c cs =>
    obtain ⟨labels, isDefault, body⟩ := c
    obtain ⟨hsteps, hscoped⟩ := resolveAll_scoped body hs
    obtain ⟨hsteps', hscoped'⟩ := resolveCases_scoped cs (hsteps.sound hs)
    rw [resolveCases_cons]
    exact ⟨hsteps.trans hsteps', Expr.resolveAll_uses s.names labels, hscoped,
      hsteps.visible ▸ hscoped'⟩

theorem resolveCatches_scoped (cs : List CatchClause) {s : Scope} (hs : s.Sound) :
    s.Steps [] (declaresCatches (resolveCatches cs s).1) (resolveCatches cs s).2 ∧
      ScopedCatches s.visible (resolveCatches cs s).1 := by
  cases cs with
  | nil => exact ⟨.refl s, trivial⟩
  | cons c cs =>
    obtain ⟨param, types, body⟩ := c
    have hlocal : SymbolKind.localVar ≠ .synthetic := by decide
    have hparam := s.define_steps param.name (CatchClause.paramTypeOf types) hlocal
    obtain ⟨hbody, hscoped⟩ := resolveAll_scoped body (hparam.sound hs)
    have hsteps := (hparam.trans hbody).within
    obtain ⟨hsteps', hscoped'⟩ := resolveCatches_scoped cs (hsteps.sound hs)
    exact ⟨hsteps.trans hsteps',
      ⟨_, rfl, Scope.define_fresh hs param.name (CatchClause.paramTypeOf types) .localVar⟩,
      hscoped, hscoped'⟩

end

end Stmt

theorem Param.mapM_resolve_cons (p : Param) (ps : List Param) (s : Scope) :
    (p :: ps).mapM Param.resolve s =
      ((p.resolve s).1 :: (ps.mapM Param.resolve (p.resolve s).2).1,
        (ps.mapM Param.resolve (p.resolve s).2).2) := by
  rw [mapM_cons]
  rfl

theorem Param.resolveAll_steps (ps : List Param) :
    s.Steps ((ps.mapM Param.resolve s).1.flatMap fun p => p.name.symbol.toList).reverse
      ((ps.mapM Param.resolve s).1.flatMap fun p => p.name.symbol.toList)
        (ps.mapM Param.resolve s).2 := by
  induction ps generalizing s with
  | nil => exact .refl s
  | cons p ps ih =>
    have hlocal : SymbolKind.parameter ≠ .synthetic := by decide
    have hp := s.define_steps p.name.name p.type hlocal
    rw [Param.mapM_resolve_cons, flatMap_cons, reverse_append]
    exact hp.trans ih

namespace Procedure

/-- The variables of the parameters. -/
def paramNames (p : Procedure) : List SymbolId := p.params.flatMap fun x => x.name.symbol.toList

/-- **Resolved procedures are scoped**, and the table holds what they declare. -/
theorem resolve_scoped (p : Procedure) :
    SymbolTable.empty.Adds p.resolve.2
      (p.resolve.1.paramNames ++ Stmt.declaresAll p.resolve.1.body) ∧
      Stmt.ScopedAll p.resolve.1.paramNames.reverse p.resolve.1.body := by
  have hstart : (Scope.mk [] .empty).Sound := nofun
  have hparams := Param.resolveAll_steps p.params (s := ⟨[], .empty⟩)
  obtain ⟨hbody, hscoped⟩ := Stmt.resolveAll_scoped p.body (hparams.sound hstart)
  rw [hparams.visible] at hscoped
  refine ⟨(hparams.trans hbody).adds, ?_⟩
  rwa [show Scope.visible ⟨[], .empty⟩ = [] from rfl, List.append_nil] at hscoped

end Procedure

end Resumable
