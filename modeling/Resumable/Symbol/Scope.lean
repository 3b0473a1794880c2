import Resumable.Symbol.Table

/-!
# Lexical scoping

Every declaration gets an identity of its own, and every use the identity of the declaration that
it denotes.

* a use denotes the latest declaration of its name before it in the innermost scope that has one;
  a name without a declaration stays free;
* blocks, branches, loop bodies, loop headers, handlers, final code and locked code are scopes; a
  switch body is one scope; a label opens none;
* a first value does not see its own variable; an iterable does not see the loop variable; handlers
  and final code do not see the resources.
-/

namespace Resumable

/-- The names in force, the latest first, and all variables so far. -/
structure Scope where
  /-- the names in force, the latest first -/
  names : List (String × SymbolId)
  /-- all variables so far -/
  symbols : SymbolTable
  deriving Inhabited

/-- A step of resolution. -/
abbrev Resolve := StateM Scope

namespace Scope

/-- The variable that a name denotes. -/
def lookup? (names : List (String × SymbolId)) (name : String) : Option SymbolId :=
  names.lookup name

/-- Declares a variable; its name is in force from now on. -/
def define (name : String) (type : TypeRef) (kind : SymbolKind) : Resolve SymbolId :=
  modifyGet fun s =>
    let (id, symbols) := s.symbols.declare name type kind
    (id, ⟨(name, id) :: s.names, symbols⟩)

/-- Runs a step in a scope of its own: the names that it declares are forgotten after it. -/
def within {α : Type} (step : Resolve α) : Resolve α := do
  let names := (← get).names
  let a ← step
  modify fun s => ⟨names, s.symbols⟩
  return a

end Scope

namespace Ident

/-- The occurrence with the variable that its name denotes. -/
def resolve (names : List (String × SymbolId)) (x : Ident) : Ident :=
  ⟨x.name, Scope.lookup? names x.name⟩

end Ident

namespace Expr

mutual

/-- The expression with every use resolved. -/
def resolve (names : List (String × SymbolId)) : Expr → Expr
  | literal l => literal l
  | ident x => ident (x.resolve names)
  | unary op e => unary op (resolve names e)
  | binary op a b => binary op (resolve names a) (resolve names b)
  | assign x op e => assign (x.resolve names) op (resolve names e)
  | increment x delta old => increment (x.resolve names) delta old
  | call f args => call f (resolveAll names args)
  | method e name args => method (resolve names e) name (resolveAll names args)

/-- Expressions with every use resolved. -/
def resolveAll (names : List (String × SymbolId)) : List Expr → List Expr
  | [] => []
  | e :: es => resolve names e :: resolveAll names es

end

/-- The expression with every use resolved in the scope at hand. -/
def resolveHere (e : Expr) : Resolve Expr := return e.resolve (← get).names

end Expr

namespace LocalDecl

/-- The declaration with its variable; the first value does not see it. -/
def resolve (d : LocalDecl) : Resolve LocalDecl := do
  let init ← d.init.mapM Expr.resolveHere
  let id ← Scope.define d.name.name d.type .localVar
  return ⟨⟨d.name.name, some id⟩, d.type, init⟩

end LocalDecl

namespace Stmt

mutual

/-- The statement with every use resolved. -/
def resolve : Stmt → Resolve Stmt
  | empty loc => return empty loc
  | expr e loc => return expr (← e.resolveHere) loc
  | declare d loc => return declare (← d.resolve) loc
  | block body loc => return block (← Scope.within (resolveAll body)) loc
  | cond test yes no loc => do
    let test ← test.resolveHere
    let yes ← Scope.within (resolve yes)
    return cond test yes (← resolveElse no) loc
  | whileLoop test body loc => do
    let test ← test.resolveHere
    return whileLoop test (← Scope.within (resolve body)) loc
  | doWhile body test loc => do
    let body ← Scope.within (resolve body)
    return doWhile body (← test.resolveHere) loc
  | forLoop init test update body loc => Scope.within do
    let init ← resolveAll init
    let test ← test.mapM Expr.resolveHere
    let update ← update.mapM Expr.resolveHere
    return forLoop init test update (← Scope.within (resolve body)) loc
  | forEach var iterable body loc => do
    let iterable ← iterable.resolveHere
    Scope.within do
      let var ← var.resolve
      return forEach var iterable (← Scope.within (resolve body)) loc
  | switch selector cases loc => do
    let selector ← selector.resolveHere
    return switch selector (← Scope.within (resolveCases cases)) loc
  | tryCatch resources body catches final loc => do
    let (resources, body) ← Scope.within do
      let resources ← resources.mapM LocalDecl.resolve
      return (resources, ← Scope.within (resolveAll body))
    let catches ← resolveCatches catches
    return tryCatch resources body catches (← resolveFinal final) loc
  | labeled label body loc => return labeled label (← resolve body) loc
  | synchronized lock body loc => do
    let lock ← lock.resolveHere
    return synchronized lock (← Scope.within (resolveAll body)) loc
  | ret value loc => return ret (← value.mapM Expr.resolveHere) loc
  | brk label loc => return brk label loc
  | cont label loc => return cont label loc
  | raise value loc => return raise (← value.resolveHere) loc

/-- Statements with every use resolved. -/
def resolveAll : List Stmt → Resolve (List Stmt)
  | [] => return []
  | s :: ss => return (← resolve s) :: (← resolveAll ss)

/-- A branch that may be missing, with every use resolved. -/
def resolveElse : Option Stmt → Resolve (Option Stmt)
  | none => return none
  | some s => return some (← Scope.within (resolve s))

/-- Final code that may be missing, with every use resolved. -/
def resolveFinal : Option (List Stmt) → Resolve (Option (List Stmt))
  | none => return none
  | some body => return some (← Scope.within (resolveAll body))

/-- A case with every use resolved. -/
def resolveCase : SwitchCase → Resolve SwitchCase
  | .mk labels isDefault body => do
    let labels ← labels.mapM Expr.resolveHere
    return .mk labels isDefault (← resolveAll body)

/-- Cases with every use resolved. -/
def resolveCases : List SwitchCase → Resolve (List SwitchCase)
  | [] => return []
  | c :: cs => return (← resolveCase c) :: (← resolveCases cs)

/-- A handler with every use resolved. -/
def resolveCatch : CatchClause → Resolve CatchClause
  | .mk param types body => Scope.within do
    let id ← Scope.define param.name (CatchClause.paramTypeOf types) .localVar
    return .mk ⟨param.name, some id⟩ types (← resolveAll body)

/-- Handlers with every use resolved. -/
def resolveCatches : List CatchClause → Resolve (List CatchClause)
  | [] => return []
  | c :: cs => return (← resolveCatch c) :: (← resolveCatches cs)

end

end Stmt

namespace Param

/-- The parameter with its variable. -/
def resolve (p : Param) : Resolve Param := do
  let id ← Scope.define p.name.name p.type .parameter
  return ⟨⟨p.name.name, some id⟩, p.type⟩

end Param

/-- The procedure with every use resolved, and its variables. -/
def Procedure.resolve (p : Procedure) : Procedure × SymbolTable :=
  let step : Resolve Procedure := do
    let params ← p.params.mapM Param.resolve
    let body ← Scope.within (Stmt.resolveAll p.body)
    return { p with params, body }
  let (q, s) := step.run ⟨[], .empty⟩
  (q, s.symbols)

end Resumable
