import Resumable.Proofs.Scoped

/-!
# Trees without their symbols

* `Stmt.unresolved` is a statement without its symbols;
* `Procedure.resolve_unresolved`: resolution does not look at symbols;
* `Procedure.unresolved_resolve`: resolution changes nothing but symbols.
-/

namespace Resumable

open List

/-! ## Trees without symbols -/

/-- The occurrence without its variable. -/
def Ident.unresolved (x : Ident) : Ident := .free x.name

namespace Expr

mutual

/-- The expression without its variables. -/
def unresolved : Expr → Expr
  | literal l => literal l
  | ident x => ident x.unresolved
  | unary op e => unary op (unresolved e)
  | binary op a b => binary op (unresolved a) (unresolved b)
  | assign x op e => assign x.unresolved op (unresolved e)
  | increment x delta old => increment x.unresolved delta old
  | call f args => call f (unresolvedAll args)
  | method e name args => method (unresolved e) name (unresolvedAll args)

/-- Expressions without their variables. -/
def unresolvedAll : List Expr → List Expr
  | [] => []
  | e :: es => unresolved e :: unresolvedAll es

end

end Expr

/-- The declaration without its variables. -/
def LocalDecl.unresolved (d : LocalDecl) : LocalDecl :=
  ⟨d.name.unresolved, d.type, d.init.map Expr.unresolved⟩

namespace Stmt

mutual

/-- The statement without its variables. -/
def unresolved : Stmt → Stmt
  | empty loc => empty loc
  | expr e loc => expr e.unresolved loc
  | declare d loc => declare d.unresolved loc
  | block body loc => block (unresolvedAll body) loc
  | cond test yes no loc => cond test.unresolved (unresolved yes) (unresolvedElse no) loc
  | whileLoop test body loc => whileLoop test.unresolved (unresolved body) loc
  | doWhile body test loc => doWhile (unresolved body) test.unresolved loc
  | forLoop init test update body loc =>
    forLoop (unresolvedAll init) (test.map Expr.unresolved) (Expr.unresolvedAll update)
      (unresolved body) loc
  | forEach var iterable body loc =>
    forEach var.unresolved iterable.unresolved (unresolved body) loc
  | switch selector cases loc => switch selector.unresolved (unresolvedCases cases) loc
  | tryCatch resources body catches final loc =>
    tryCatch (resources.map LocalDecl.unresolved) (unresolvedAll body) (unresolvedCatches catches)
      (unresolvedFinal final) loc
  | labeled label body loc => labeled label (unresolved body) loc
  | synchronized lock body loc => synchronized lock.unresolved (unresolvedAll body) loc
  | ret value loc => ret (value.map Expr.unresolved) loc
  | brk label loc => brk label loc
  | cont label loc => cont label loc
  | raise value loc => raise value.unresolved loc

/-- Statements without their variables. -/
def unresolvedAll : List Stmt → List Stmt
  | [] => []
  | s :: ss => unresolved s :: unresolvedAll ss

/-- A branch that may be missing, without its variables. -/
def unresolvedElse : Option Stmt → Option Stmt
  | none => none
  | some s => some (unresolved s)

/-- Final code that may be missing, without its variables. -/
def unresolvedFinal : Option (List Stmt) → Option (List Stmt)
  | none => none
  | some body => some (unresolvedAll body)

/-- Cases without their variables. -/
def unresolvedCases : List SwitchCase → List SwitchCase
  | [] => []
  | .mk labels isDefault body :: cs =>
    .mk (Expr.unresolvedAll labels) isDefault (unresolvedAll body) :: unresolvedCases cs

/-- Handlers without their variables. -/
def unresolvedCatches : List CatchClause → List CatchClause
  | [] => []
  | .mk param types body :: cs =>
    .mk param.unresolved types (unresolvedAll body) :: unresolvedCatches cs

end

end Stmt

/-- The parameter without its variable. -/
def Param.unresolved (p : Param) : Param := ⟨p.name.unresolved, p.type⟩

/-- The procedure without its variables. -/
def Procedure.unresolved (p : Procedure) : Procedure :=
  { p with params := p.params.map Param.unresolved, body := Stmt.unresolvedAll p.body }

/-! ## Resolution does not look at symbols -/

namespace Expr

mutual

theorem resolve_unresolved (names : List (String × SymbolId)) (e : Expr) :
    e.unresolved.resolve names = e.resolve names := by
  cases e with
  | literal | ident | increment => rfl
  | unary op e => rw [unresolved, resolve, resolve, resolve_unresolved names e]
  | binary op a b =>
    rw [unresolved, resolve, resolve, resolve_unresolved names a, resolve_unresolved names b]
  | assign x op e =>
    rw [unresolved, resolve, resolve, resolve_unresolved names e]
    rfl
  | call f args => rw [unresolved, resolve, resolve, resolveAll_unresolved names args]
  | method e name args =>
    rw [unresolved, resolve, resolve, resolve_unresolved names e, resolveAll_unresolved names args]

theorem resolveAll_unresolved (names : List (String × SymbolId)) (es : List Expr) :
    resolveAll names (unresolvedAll es) = resolveAll names es := by
  cases es with
  | nil => rfl
  | cons e es =>
    rw [unresolvedAll, resolveAll, resolveAll, resolve_unresolved names e,
      resolveAll_unresolved names es]

end

@[simp] theorem resolveHere_unresolved (e : Expr) : e.unresolved.resolveHere = e.resolveHere := by
  unfold resolveHere
  simp only [resolve_unresolved]

@[simp] theorem mapM_unresolvedAll (es : List Expr) :
    (unresolvedAll es).mapM resolveHere = es.mapM resolveHere := by
  induction es with
  | nil => rfl
  | cons e es ih => rw [unresolvedAll, mapM_cons, mapM_cons, resolveHere_unresolved, ih]

@[simp] theorem mapM_unresolved? (e : Option Expr) :
    (e.map unresolved).mapM resolveHere = e.mapM resolveHere := by
  cases e with
  | none => rfl
  | some => simp only [Option.map_some, Option.mapM_some, resolveHere_unresolved]

end Expr

namespace LocalDecl

@[simp] theorem resolve_unresolved (d : LocalDecl) : d.unresolved.resolve = d.resolve := by
  rw [resolve, resolve, unresolved, Expr.mapM_unresolved?]
  rfl

@[simp] theorem mapM_unresolved (ds : List LocalDecl) :
    (ds.map unresolved).mapM resolve = ds.mapM resolve := by
  rw [mapM_map]
  congr 1
  funext d
  exact d.resolve_unresolved

end LocalDecl

namespace Stmt

mutual

theorem resolve_unresolved (s : Stmt) : s.unresolved.resolve = s.resolve := by
  cases s with
  | block body => simp only [unresolved, resolve, resolveAll_unresolved body]
  | cond test yes no =>
    simp only [unresolved, resolve, Expr.resolveHere_unresolved, resolve_unresolved yes,
      resolveElse_unresolved no]
  | whileLoop test body | doWhile body =>
    simp only [unresolved, resolve, Expr.resolveHere_unresolved, resolve_unresolved body]
  | forLoop init test update body =>
    simp only [unresolved, resolve, resolveAll_unresolved init, Expr.mapM_unresolved?,
      Expr.mapM_unresolvedAll, resolve_unresolved body]
  | forEach var iterable body =>
    simp only [unresolved, resolve, Expr.resolveHere_unresolved, LocalDecl.resolve_unresolved,
      resolve_unresolved body]
  | switch selector cases =>
    simp only [unresolved, resolve, Expr.resolveHere_unresolved, resolveCases_unresolved cases]
  | tryCatch resources body catches final =>
    simp only [unresolved, resolve, LocalDecl.mapM_unresolved, resolveAll_unresolved body,
      resolveCatches_unresolved catches, resolveFinal_unresolved final]
  | labeled label body => simp only [unresolved, resolve, resolve_unresolved body]
  | synchronized lock body =>
    simp only [unresolved, resolve, Expr.resolveHere_unresolved, resolveAll_unresolved body]
  | _ => simp [unresolved, resolve]

theorem resolveAll_unresolved (ss : List Stmt) : resolveAll (unresolvedAll ss) = resolveAll ss := by
  cases ss with
  | nil => rfl
  | cons s ss =>
    simp only [unresolvedAll, resolveAll, resolve_unresolved s, resolveAll_unresolved ss]

theorem resolveElse_unresolved (no : Option Stmt) :
    resolveElse (unresolvedElse no) = resolveElse no := by
  cases no with
  | none => rfl
  | some s => simp only [unresolvedElse, resolveElse, resolve_unresolved s]

theorem resolveFinal_unresolved (final : Option (List Stmt)) :
    resolveFinal (unresolvedFinal final) = resolveFinal final := by
  cases final with
  | none => rfl
  | some body => simp only [unresolvedFinal, resolveFinal, resolveAll_unresolved body]

theorem resolveCases_unresolved (cs : List SwitchCase) :
    resolveCases (unresolvedCases cs) = resolveCases cs := by
  cases cs with
  | nil => rfl
  | cons c cs =>
    obtain ⟨labels, isDefault, body⟩ := c
    simp only [unresolvedCases, resolveCases, resolveCase, Expr.mapM_unresolvedAll,
      resolveAll_unresolved body, resolveCases_unresolved cs]

theorem resolveCatches_unresolved (cs : List CatchClause) :
    resolveCatches (unresolvedCatches cs) = resolveCatches cs := by
  cases cs with
  | nil => rfl
  | cons c cs =>
    obtain ⟨param, types, body⟩ := c
    simp only [unresolvedCatches, resolveCatches, resolveCatch, resolveAll_unresolved body,
      resolveCatches_unresolved cs]
    rfl

end

end Stmt

/-- **Resolution does not look at symbols.** -/
theorem Procedure.resolve_unresolved (p : Procedure) : p.unresolved.resolve = p.resolve := by
  have hparams : (p.params.map Param.unresolved).mapM Param.resolve =
      p.params.mapM Param.resolve := by
    rw [mapM_map]
    rfl
  simp only [Procedure.resolve, Procedure.unresolved, hparams, Stmt.resolveAll_unresolved]

/-! ## Resolution changes symbols only -/

namespace Expr

mutual

theorem unresolved_resolve (names : List (String × SymbolId)) (e : Expr) :
    (e.resolve names).unresolved = e.unresolved := by
  cases e with
  | literal | ident | increment => rfl
  | unary op e => rw [resolve, unresolved, unresolved, unresolved_resolve names e]
  | binary op a b =>
    rw [resolve, unresolved, unresolved, unresolved_resolve names a, unresolved_resolve names b]
  | assign x op e =>
    rw [resolve, unresolved, unresolved, unresolved_resolve names e]
    rfl
  | call f args => rw [resolve, unresolved, unresolved, unresolvedAll_resolve names args]
  | method e name args =>
    rw [resolve, unresolved, unresolved, unresolved_resolve names e,
      unresolvedAll_resolve names args]

theorem unresolvedAll_resolve (names : List (String × SymbolId)) (es : List Expr) :
    unresolvedAll (resolveAll names es) = unresolvedAll es := by
  cases es with
  | nil => rfl
  | cons e es =>
    rw [resolveAll, unresolvedAll, unresolvedAll, unresolved_resolve names e,
      unresolvedAll_resolve names es]

end

theorem unresolved_resolve? (names : List (String × SymbolId)) (e : Option Expr) :
    (e.map (resolve names)).map unresolved = e.map unresolved := by
  cases e with
  | none => rfl
  | some => simp only [Option.map_some, unresolved_resolve]

end Expr

namespace LocalDecl

theorem unresolved_resolve (d : LocalDecl) (s : Scope) :
    (d.resolve s).1.unresolved = d.unresolved := by
  simp only [resolve_eq, unresolved, Expr.unresolved_resolve?]
  rfl

/-- Resources, each of which sees those before it. -/
theorem map_unresolved_resolve (ds : List LocalDecl) (s : Scope) :
    (ds.mapM resolve s).1.map unresolved = ds.map unresolved := by
  induction ds generalizing s with
  | nil => rfl
  | cons d ds ih => simp only [mapM_resolve_cons, map_cons, unresolved_resolve, ih]

end LocalDecl

namespace Stmt

/-- Handlers are resolved where the resources are not in force. -/
theorem resolve_tryCatch (resources : List LocalDecl) (body : List Stmt)
    (catches : List CatchClause) (final : Option (List Stmt)) (loc : Location) (s : Scope) :
    resolve (tryCatch resources body catches final loc) s =
      let opened := resources.mapM LocalDecl.resolve s
      let inner := resolveAll body opened.2
      let handlers := resolveCatches catches ⟨s.names, inner.2.symbols⟩
      let last := resolveFinal final handlers.2
      (tryCatch opened.1 inner.1 handlers.1 last.1 loc, last.2) := rfl

mutual

theorem unresolved_resolve (a : Stmt) (s : Scope) : (resolve a s).1.unresolved = a.unresolved := by
  cases a with
  | expr e loc => exact congrArg (expr · loc) (e.unresolved_resolve s.names)
  | declare d loc => exact congrArg (declare · loc) (d.unresolved_resolve s)
  | block body loc => exact congrArg (block · loc) (unresolvedAll_resolve body s)
  | cond test yes no loc =>
    simp only [unresolved, ← test.unresolved_resolve s.names, ← unresolved_resolve yes s]
    exact congrArg (cond _ _ · loc) (unresolvedElse_resolve no _)
  | whileLoop test body loc =>
    simp only [unresolved, ← test.unresolved_resolve s.names]
    exact congrArg (whileLoop _ · loc) (unresolved_resolve body s)
  | doWhile body test loc =>
    simp only [unresolved, ← test.unresolved_resolve s.names]
    exact congrArg (doWhile · _ loc) (unresolved_resolve body s)
  | forLoop init test update body =>
    simp only [resolve_forLoop, unresolved, unresolvedAll_resolve init s, Expr.unresolved_resolve?,
      Expr.unresolvedAll_resolve, unresolved_resolve body]
  | forEach var iterable body loc =>
    simp only [unresolved, ← iterable.unresolved_resolve s.names, ← var.unresolved_resolve s]
    exact congrArg (forEach _ _ · loc) (unresolved_resolve body _)
  | switch selector cases loc =>
    simp only [unresolved, ← selector.unresolved_resolve s.names]
    exact congrArg (switch _ · loc) (unresolvedCases_resolve cases s)
  | tryCatch resources body catches final =>
    simp only [resolve_tryCatch, unresolved, LocalDecl.map_unresolved_resolve,
      unresolvedAll_resolve body, unresolvedCatches_resolve catches, unresolvedFinal_resolve final]
  | labeled label body loc => exact congrArg (labeled label · loc) (unresolved_resolve body s)
  | synchronized lock body loc =>
    simp only [unresolved, ← lock.unresolved_resolve s.names]
    exact congrArg (synchronized _ · loc) (unresolvedAll_resolve body s)
  | ret value loc =>
    cases value with
    | none => rfl
    | some e => exact congrArg (fun e => ret (some e) loc) (e.unresolved_resolve s.names)
  | raise value loc => exact congrArg (raise · loc) (value.unresolved_resolve s.names)
  | _ => rfl

theorem unresolvedAll_resolve (ss : List Stmt) (s : Scope) :
    unresolvedAll (resolveAll ss s).1 = unresolvedAll ss := by
  cases ss with
  | nil => rfl
  | cons a ss =>
    rw [unresolvedAll, ← unresolved_resolve a s, ← unresolvedAll_resolve ss _]
    rfl

theorem unresolvedElse_resolve (no : Option Stmt) (s : Scope) :
    unresolvedElse (resolveElse no s).1 = unresolvedElse no := by
  cases no with
  | none => rfl
  | some a => exact congrArg some (unresolved_resolve a s)

theorem unresolvedFinal_resolve (final : Option (List Stmt)) (s : Scope) :
    unresolvedFinal (resolveFinal final s).1 = unresolvedFinal final := by
  cases final with
  | none => rfl
  | some body => exact congrArg some (unresolvedAll_resolve body s)

theorem unresolvedCases_resolve (cs : List SwitchCase) (s : Scope) :
    unresolvedCases (resolveCases cs s).1 = unresolvedCases cs := by
  cases cs with
  | nil => rfl
  | cons c cs =>
    obtain ⟨labels, isDefault, body⟩ := c
    simp only [resolveCases_cons, unresolvedCases, Expr.unresolvedAll_resolve,
      unresolvedAll_resolve body, unresolvedCases_resolve cs]

theorem unresolvedCatches_resolve (cs : List CatchClause) (s : Scope) :
    unresolvedCatches (resolveCatches cs s).1 = unresolvedCatches cs := by
  cases cs with
  | nil => rfl
  | cons c cs =>
    obtain ⟨param, types, body⟩ := c
    simp only [unresolvedCatches]
    rw [← unresolvedAll_resolve body _, ← unresolvedCatches_resolve cs _]
    rfl

end

end Stmt

/-- **Resolution changes symbols only.** -/
theorem Procedure.unresolved_resolve (p : Procedure) : p.resolve.1.unresolved = p.unresolved := by
  have hparams : ∀ (ps : List Param) (s : Scope),
      (ps.mapM Param.resolve s).1.map Param.unresolved = ps.map Param.unresolved := by
    intro ps
    induction ps with
    | nil => exact fun _ => rfl
    | cons p ps ih =>
      intro s
      simp only [Param.mapM_resolve_cons, map_cons, ih]
      rfl
  rw [Procedure.unresolved, Procedure.unresolved, ← hparams p.params ⟨[], .empty⟩,
    ← Stmt.unresolvedAll_resolve p.body _]
  rfl

end Resumable
