import Resumable.Proofs.Unresolved

/-!
# Resolution is lexical scoping

Lexical scoping is said once more, by looking at the tree only: which declarations are in force at
each use, scope by scope, and which of them a name selects.

* `Stmt.declarations` are all declarations in a statement, and `Stmt.usesIn` all uses, each with the
  declarations before it in every scope around it;
* `Scopes.select` chooses the latest declaration of a name in the innermost scope that has one;
* `Scope.Binds` says what resolution does to names and variables, and `Scopes.Mirrors` ties the
  names in force to the scopes;
* `Procedure.resolution_lexical`: resolution numbers the declarations in order, and gives every use
  the declaration that is selected.
-/

namespace Resumable

open List

/-! ## Declarations -/

/-- The declaration of a variable. -/
structure Declaration where
  /-- the occurrence that declares -/
  ident : Ident
  /-- the type of the variable -/
  type : TypeRef
  /-- where the variable comes from -/
  kind : SymbolKind

/-- What a table is to hold for the variable. -/
def Declaration.info (d : Declaration) : SymbolInfo := ⟨d.ident.name, d.type, d.kind⟩

/-- The declaration that a statement or a header makes. -/
def LocalDecl.declaration (d : LocalDecl) : Declaration := ⟨d.name, d.type, .localVar⟩

/-- The declaration that a parameter makes. -/
def Param.declaration (p : Param) : Declaration := ⟨p.name, p.type, .parameter⟩

/-- The declaration that a handler makes. -/
def CatchClause.declarationOf (param : Ident) (types : List TypeRef) : Declaration :=
  ⟨param, paramTypeOf types, .localVar⟩

namespace Stmt

mutual

/-- All declarations in a statement, in order. -/
def declarations : Stmt → List Declaration
  | declare d _ => [d.declaration]
  | block body _ => declarationsAll body
  | cond _ yes no _ => declarations yes ++ declarationsElse no
  | whileLoop _ body _ => declarations body
  | doWhile body _ _ => declarations body
  | forLoop init _ _ body _ => declarationsAll init ++ declarations body
  | forEach var _ body _ => var.declaration :: declarations body
  | switch _ cases _ => declarationsCases cases
  | tryCatch resources body catches final _ =>
    resources.map LocalDecl.declaration ++ declarationsAll body ++ declarationsCatches catches ++
      declarationsFinal final
  | labeled _ body _ => declarations body
  | synchronized _ body _ => declarationsAll body
  | empty _ | expr _ _ | ret _ _ | brk _ _ | cont _ _ | raise _ _ => []

/-- All declarations in statements, in order. -/
def declarationsAll : List Stmt → List Declaration
  | [] => []
  | s :: ss => declarations s ++ declarationsAll ss

/-- All declarations in a branch that may be missing. -/
def declarationsElse : Option Stmt → List Declaration
  | none => []
  | some s => declarations s

/-- All declarations in final code that may be missing. -/
def declarationsFinal : Option (List Stmt) → List Declaration
  | none => []
  | some body => declarationsAll body

/-- All declarations in cases, in order. -/
def declarationsCases : List SwitchCase → List Declaration
  | [] => []
  | .mk _ _ body :: cs => declarationsAll body ++ declarationsCases cs

/-- All declarations in handlers, in order. -/
def declarationsCatches : List CatchClause → List Declaration
  | [] => []
  | .mk param types body :: cs =>
    CatchClause.declarationOf param types :: (declarationsAll body ++ declarationsCatches cs)

end

/-- The declarations that a statement makes in the scope that it stands in. -/
def opens : Stmt → List Declaration
  | declare d _ => [d.declaration]
  | labeled _ body _ => opens body
  | _ => []

/-- The declarations that statements make in the scope that they stand in, in order. -/
def opensAll (ss : List Stmt) : List Declaration := ss.flatMap opens

/-- The declarations that cases make in the scope of their switch, in order. -/
def opensCases (cs : List SwitchCase) : List Declaration := cs.flatMap fun c => opensAll c.body

end Stmt

/-- All declarations of a procedure, in order. -/
def Procedure.declarations (p : Procedure) : List Declaration :=
  p.params.map Param.declaration ++ Stmt.declarationsAll p.body

/-! ## Lexical scoping -/

/-- The declarations before some place in each scope around it, the innermost scope first; those of
one scope stand in order. -/
abbrev Scopes := List (List Declaration)

namespace Scopes

/-- The declaration that a name denotes: the latest one in the innermost scope that has one. -/
def select (name : String) : Scopes → Option Declaration
  | [] => none
  | scope :: around => (scope.reverse.find? fun d => d.ident.name == name).or (select name around)

/-- The scopes after declarations in the innermost one. -/
def add (ds : List Declaration) : Scopes → Scopes
  | [] => [ds]
  | scope :: around => (scope ++ ds) :: around

end Scopes

/-- A use of a name, with the scopes around it. -/
structure Use where
  ident : Ident
  scopes : Scopes

/-- The use has the variable of the declaration that its name selects, and none if there is none. -/
def Use.Lexical (u : Use) : Prop :=
  match u.scopes.select u.ident.name with
  | some d => u.ident.symbol = d.ident.symbol ∧ d.ident.symbol.isSome
  | none => u.ident.symbol = none

namespace Expr

mutual

/-- The names that an expression uses. -/
def occurrences : Expr → List Ident
  | literal _ => []
  | ident x => [x]
  | unary _ e => occurrences e
  | binary _ a b => occurrences a ++ occurrences b
  | assign x _ e => x :: occurrences e
  | increment x _ _ => [x]
  | call _ args => occurrencesAll args
  | method e _ args => occurrences e ++ occurrencesAll args

/-- The names that expressions use. -/
def occurrencesAll : List Expr → List Ident
  | [] => []
  | e :: es => occurrences e ++ occurrencesAll es

end

/-- The uses in an expression. -/
def usesIn (scopes : Scopes) (e : Expr) : List Use := e.occurrences.map (⟨·, scopes⟩)

/-- The uses in expressions. -/
def usesInAll (scopes : Scopes) (es : List Expr) : List Use := (occurrencesAll es).map (⟨·, scopes⟩)

/-- The uses in an expression that may be missing. -/
def usesIn? (scopes : Scopes) (e : Option Expr) : List Use := e.elim [] (usesIn scopes)

end Expr

/-- The uses in declarations, each of which sees those before it but not itself. -/
def LocalDecl.usesInAll (scopes : Scopes) : List LocalDecl → List Use
  | [] => []
  | d :: ds => Expr.usesIn? scopes d.init ++ usesInAll (scopes.add [d.declaration]) ds

namespace Stmt

mutual

/-- The uses in a statement that stands in some scopes. -/
def usesIn (scopes : Scopes) : Stmt → List Use
  | empty _ => []
  | expr e _ => e.usesIn scopes
  | declare d _ => Expr.usesIn? scopes d.init
  | block body _ => usesInAll ([] :: scopes) body
  | cond test yes no _ => test.usesIn scopes ++ usesIn ([] :: scopes) yes ++ usesInElse scopes no
  | whileLoop test body _ => test.usesIn scopes ++ usesIn ([] :: scopes) body
  | doWhile body test _ => usesIn ([] :: scopes) body ++ test.usesIn scopes
  | forLoop init test update body _ =>
    usesInAll ([] :: scopes) init ++ Expr.usesIn? (opensAll init :: scopes) test ++
      Expr.usesInAll (opensAll init :: scopes) update ++ usesIn ([] :: opensAll init :: scopes) body
  | forEach var iterable body _ =>
    iterable.usesIn scopes ++ Expr.usesIn? scopes var.init ++ usesIn
      ([] :: [var.declaration] :: scopes) body
  | switch selector cases _ => selector.usesIn scopes ++ usesInCases ([] :: scopes) cases
  | tryCatch resources body catches final _ =>
    LocalDecl.usesInAll ([] :: scopes) resources ++
      usesInAll ([] :: resources.map LocalDecl.declaration :: scopes) body ++
        usesInCatches scopes catches ++
      usesInFinal scopes final
  | labeled _ body _ => usesIn scopes body
  | synchronized lock body _ => lock.usesIn scopes ++ usesInAll ([] :: scopes) body
  | ret value _ => Expr.usesIn? scopes value
  | brk _ _ => []
  | cont _ _ => []
  | raise value _ => value.usesIn scopes

/-- The uses in statements, each of which sees what those before it declare. -/
def usesInAll (scopes : Scopes) : List Stmt → List Use
  | [] => []
  | s :: ss => usesIn scopes s ++ usesInAll (scopes.add (opens s)) ss

/-- The uses in a branch that may be missing. -/
def usesInElse (scopes : Scopes) : Option Stmt → List Use
  | none => []
  | some s => usesIn ([] :: scopes) s

/-- The uses in final code that may be missing. -/
def usesInFinal (scopes : Scopes) : Option (List Stmt) → List Use
  | none => []
  | some body => usesInAll ([] :: scopes) body

/-- The uses in cases, each of which sees what those before it declare. -/
def usesInCases (scopes : Scopes) : List SwitchCase → List Use
  | [] => []
  | .mk labels _ body :: cs =>
    Expr.usesInAll scopes labels ++ usesInAll scopes body ++ usesInCases
      (scopes.add (opensAll body)) cs

/-- The uses in handlers, none of which sees another. -/
def usesInCatches (scopes : Scopes) : List CatchClause → List Use
  | [] => []
  | .mk param types body :: cs =>
    usesInAll ([CatchClause.declarationOf param types] :: scopes) body ++ usesInCatches scopes cs

end

end Stmt

/-- The uses in a procedure, whose body is a scope in that of the parameters. -/
def Procedure.uses (p : Procedure) : List Use :=
  Stmt.usesInAll [[], p.params.map Param.declaration] p.body

/-! ## Resolution binds lexically -/

namespace Scope

/-- The names in force as occurrences, the latest first. -/
def idents (s : Scope) : List Ident := s.names.map fun n => ⟨n.1, some n.2⟩

/-- From one scope to a later one: declarations that come into force, and all that are made. -/
structure Binds (s : Scope) (opened declared : List Declaration) (s' : Scope) : Prop where
  idents : s'.idents = (opened.map Declaration.ident).reverse ++ s.idents
  ids : declared.map (fun d => d.ident.symbol) = (List.range' s.symbols.size declared.length).map
    fun i => some ⟨i⟩
  table : s'.symbols.symbols.toList = s.symbols.symbols.toList ++ declared.map Declaration.info

namespace Binds

variable {s s₁ s₂ : Scope} {xs ys ds es : List Declaration}

theorem refl (s : Scope) : s.Binds [] [] s := ⟨rfl, rfl, (List.append_nil _).symm⟩

theorem size (h : s.Binds xs ds s₁) : s₁.symbols.size = s.symbols.size + ds.length := by
  have hlength := congrArg List.length h.table
  simpa [SymbolTable.size] using hlength

theorem trans (h : s.Binds xs ds s₁) (h' : s₁.Binds ys es s₂) :
    s.Binds (xs ++ ys) (ds ++ es) s₂ where
  idents := by simp [h'.idents, h.idents]
  ids := by
    rw [map_append, length_append, ← List.range'_append_1, map_append, ← h.ids, ← h.size, ← h'.ids]
  table := by simp [h'.table, h.table]

/-- After a scope of their own, the declarations are no more in force. -/
theorem within (h : s.Binds xs ds s₁) : s.Binds [] ds ⟨s.names, s₁.symbols⟩ := ⟨rfl, h.ids, h.table⟩

end Binds

theorem define_binds (s : Scope) (name : String) (type : TypeRef) (kind : SymbolKind) :
    s.Binds [⟨⟨name, some (define name type kind s).1⟩, type, kind⟩]
      [⟨⟨name, some (define name type kind s).1⟩, type, kind⟩] (define name type kind s).2 where
  idents := rfl
  ids := rfl
  table := Array.toList_push

end Scope

namespace Scopes

/-- The scopes hold what is in force. -/
def Mirrors (scopes : Scopes) (s : Scope) : Prop :=
  s.idents = (scopes.flatMap List.reverse).map Declaration.ident

variable {scopes : Scopes} {s s' : Scope} {opened declared : List Declaration}

theorem Mirrors.nest (h : scopes.Mirrors s) : Mirrors ([] :: scopes) s := h

theorem Mirrors.add (h : scopes.Mirrors s) (hbinds : s.Binds opened declared s') :
    Mirrors (scopes.add opened) s' := by
  unfold Mirrors at h ⊢
  rw [hbinds.idents, h]
  cases scopes with
  | nil | cons => simp [Scopes.add]

/-- Selection looks for the latest declaration of the name that is in force. -/
theorem select_eq (name : String) (scopes : Scopes) :
    scopes.select name = (scopes.flatMap List.reverse).find? fun d => d.ident.name == name := by
  induction scopes with
  | nil => rfl
  | cons scope around ih => rw [select, flatMap_cons, find?_append, ih]

theorem lookup_eq (names : List (String × SymbolId)) (name : String) : names.lookup name =
      ((names.map fun n => (⟨n.1, some n.2⟩ : Ident)).find? fun x => x.name == name).bind
        Ident.symbol := by
  induction names with
  | nil => rfl
  | cons n names ih =>
    obtain ⟨own, id⟩ := n
    have hcomm : (own == name) = (name == own) := BEq.comm
    simp only [lookup_cons, map_cons, find?_cons, ih, hcomm]
    cases name == own with
    | true | false => rfl

/-- **A use gets the declaration that its name selects.** -/
theorem Mirrors.lexical (h : scopes.Mirrors s) (x : Ident) :
    (Use.mk (x.resolve s.names) scopes).Lexical := by
  have hlookup : (x.resolve s.names).symbol = (scopes.select x.name).bind fun d =>
    d.ident.symbol := by
    have hfind := lookup_eq s.names x.name
    rw [show (s.names.map fun n => (⟨n.1, some n.2⟩ : Ident)) = s.idents from rfl, h, find?_map,
      Option.bind_map] at hfind
    rw [select_eq]
    exact hfind
  unfold Use.Lexical
  cases hselect : scopes.select x.name with
  | none =>
    rw [hselect] at hlookup
    simp only [show (x.resolve s.names).name = x.name from rfl, hselect]
    exact hlookup
  | some d =>
    rw [hselect] at hlookup
    simp only [show (x.resolve s.names).name = x.name from rfl, hselect]
    refine ⟨hlookup, ?_⟩
    -- all that is in force carries a variable
    rw [select_eq] at hselect
    have hmem : d.ident ∈ s.idents := by
      rw [h]
      exact mem_map_of_mem (mem_of_find?_eq_some hselect)
    obtain ⟨n, -, hn⟩ := mem_map.mp hmem
    rw [← hn]
    rfl

end Scopes

namespace Expr

variable {scopes : Scopes} {s : Scope}

mutual

theorem occurrences_resolve (names : List (String × SymbolId)) (e : Expr) :
    (e.resolve names).occurrences = e.occurrences.map (Ident.resolve names) := by
  cases e with
  | binary op a b =>
    simp only [resolve, occurrences, occurrences_resolve names a, occurrences_resolve names b,
      map_append]
  | unary op e => exact occurrences_resolve names e
  | assign x op e => simp only [resolve, occurrences, occurrences_resolve names e, map_cons]
  | call f args => exact occurrencesAll_resolve names args
  | method e name args =>
    simp only [resolve, occurrences, occurrences_resolve names e, occurrencesAll_resolve names args,
      map_append]
  | _ => rfl

theorem occurrencesAll_resolve (names : List (String × SymbolId)) (es : List Expr) :
    occurrencesAll (resolveAll names es) = (occurrencesAll es).map (Ident.resolve names) := by
  cases es with
  | nil => rfl
  | cons e es =>
    simp only [resolveAll, occurrencesAll, occurrences_resolve names e,
      occurrencesAll_resolve names es, map_append]

end

theorem uses_lexical (h : scopes.Mirrors s) (e : Expr) :
    ∀ u ∈ (e.resolve s.names).usesIn scopes, u.Lexical := by
  simp only [usesIn, occurrences_resolve, map_map, forall_mem_map]
  exact fun x _ => h.lexical x

theorem usesAll_lexical (h : scopes.Mirrors s) (es : List Expr) :
    ∀ u ∈ usesInAll scopes (resolveAll s.names es), u.Lexical := by
  simp only [usesInAll, occurrencesAll_resolve, map_map, forall_mem_map]
  exact fun x _ => h.lexical x

theorem uses?_lexical (h : scopes.Mirrors s) (e : Option Expr) :
    ∀ u ∈ usesIn? scopes (e.map (resolve s.names)), u.Lexical := by
  cases e with
  | none => exact nofun
  | some e => exact e.uses_lexical h

end Expr

namespace LocalDecl

theorem resolve_binds (d : LocalDecl) (s : Scope) :
    s.Binds [(d.resolve s).1.declaration] [(d.resolve s).1.declaration] (d.resolve s).2 := by
  rw [d.resolve_eq s]
  exact s.define_binds _ _ _

theorem resolve_lexical {scopes : Scopes} {s : Scope} (h : scopes.Mirrors s) (d : LocalDecl) :
    ∀ u ∈ Expr.usesIn? scopes (d.resolve s).1.init, u.Lexical := by
  rw [d.resolve_eq s]
  exact Expr.uses?_lexical h d.init

theorem resolveAll_lexical (ds : List LocalDecl) (s : Scope) :
    s.Binds ((ds.mapM resolve s).1.map declaration) ((ds.mapM resolve s).1.map declaration)
      (ds.mapM resolve s).2 ∧
      ∀ scopes : Scopes, scopes.Mirrors s → ∀ u ∈ usesInAll scopes (ds.mapM resolve s).1,
        u.Lexical := by
  induction ds generalizing s with
  | nil => exact ⟨.refl s, fun _ _ => nofun⟩
  | cons d ds ih =>
    rw [mapM_resolve_cons]
    have hfirst := d.resolve_binds s
    obtain ⟨hrest, hlexical⟩ := ih (d.resolve s).2
    refine ⟨hfirst.trans hrest, fun scopes h => forall_mem_append.mpr ⟨d.resolve_lexical h, ?_⟩⟩
    exact hlexical _ (h.add hfirst)

end LocalDecl

namespace Stmt

mutual

/-- **Resolved statements are lexically scoped**, and the table takes in their declarations in
order. -/
theorem resolve_lexical (a : Stmt) (s : Scope) :
    s.Binds (resolve a s).1.opens (resolve a s).1.declarations (resolve a s).2 ∧
      ∀ scopes : Scopes, scopes.Mirrors s → ∀ u ∈ (resolve a s).1.usesIn scopes, u.Lexical := by
  cases a with
  | empty | brk | cont => exact ⟨.refl s, fun _ _ => nofun⟩
  | expr e | raise e => exact ⟨.refl s, fun _ h => e.uses_lexical h⟩
  | declare d => exact ⟨d.resolve_binds s, fun _ h => d.resolve_lexical h⟩
  | block body =>
    obtain ⟨hbinds, hlexical⟩ := resolveAll_lexical body s
    exact ⟨hbinds.within, fun _ h => hlexical _ h.nest⟩
  | cond test yes no =>
    obtain ⟨hyes, hyesLexical⟩ := resolve_lexical yes s
    obtain ⟨hno, hnoLexical⟩ := resolveElse_lexical no ⟨s.names, (resolve yes s).2.symbols⟩
    refine ⟨hyes.within.trans hno, fun scopes h => forall_mem_append.mpr ⟨?_, ?_⟩⟩
    · exact forall_mem_append.mpr ⟨test.uses_lexical h, hyesLexical _ h.nest⟩
    · exact hnoLexical scopes h
  | whileLoop test body =>
    obtain ⟨hbody, hlexical⟩ := resolve_lexical body s
    exact ⟨hbody.within, fun _ h => forall_mem_append.mpr ⟨test.uses_lexical h, hlexical _ h.nest⟩⟩
  | doWhile body test =>
    obtain ⟨hbody, hlexical⟩ := resolve_lexical body s
    exact ⟨hbody.within, fun _ h => forall_mem_append.mpr ⟨hlexical _ h.nest, test.uses_lexical h⟩⟩
  | forLoop init test update body =>
    rw [resolve_forLoop]
    obtain ⟨hinit, hinitLexical⟩ := resolveAll_lexical init s
    obtain ⟨hbody, hbodyLexical⟩ := resolve_lexical body (resolveAll init s).2
    refine ⟨(hinit.trans hbody.within).within, fun scopes h => ?_⟩
    have hinner := h.nest.add hinit
    refine forall_mem_append.mpr ⟨forall_mem_append.mpr ⟨forall_mem_append.mpr ⟨?_, ?_⟩, ?_⟩, ?_⟩
    · exact hinitLexical _ h.nest
    · exact Expr.uses?_lexical hinner test
    · exact Expr.usesAll_lexical hinner update
    · exact hbodyLexical _ hinner.nest
  | forEach var iterable body =>
    have hvar := var.resolve_binds s
    obtain ⟨hbody, hlexical⟩ := resolve_lexical body (var.resolve s).2
    refine ⟨(hvar.trans hbody.within).within, fun scopes h => forall_mem_append.mpr ⟨?_, ?_⟩⟩
    · exact forall_mem_append.mpr ⟨iterable.uses_lexical h, var.resolve_lexical h⟩
    · exact hlexical _ (h.nest.add hvar).nest
  | switch selector cases =>
    obtain ⟨hcases, hlexical⟩ := resolveCases_lexical cases s
    exact ⟨hcases.within, fun _ h => forall_mem_append.mpr ⟨selector.uses_lexical h,
      hlexical _ h.nest⟩⟩
  | tryCatch resources body catches final =>
    rw [resolve_tryCatch]
    obtain ⟨hopen, hopenLexical⟩ := LocalDecl.resolveAll_lexical resources s
    obtain ⟨hbody, hbodyLexical⟩ := resolveAll_lexical body (resources.mapM LocalDecl.resolve s).2
    have hguarded := (hopen.trans hbody.within).within
    obtain ⟨hcatches, hcatchesLexical⟩ := resolveCatches_lexical catches
      ⟨s.names, (resolveAll body (resources.mapM LocalDecl.resolve s).2).2.symbols⟩
    obtain ⟨hfinal, hfinalLexical⟩ := resolveFinal_lexical final (resolveCatches catches
      ⟨s.names, (resolveAll body (resources.mapM LocalDecl.resolve s).2).2.symbols⟩).2
    refine ⟨(hguarded.trans hcatches).trans hfinal, fun scopes h => ?_⟩
    refine forall_mem_append.mpr ⟨forall_mem_append.mpr ⟨forall_mem_append.mpr ⟨?_, ?_⟩, ?_⟩, ?_⟩
    · exact hopenLexical _ h.nest
    · exact hbodyLexical _ (h.nest.add hopen).nest
    -- handlers and final code see what the whole try sees
    · exact hcatchesLexical scopes h
    · refine hfinalLexical scopes (hcatches.idents.trans ?_)
      exact h
  | labeled label body => exact resolve_lexical body s
  | synchronized lock body =>
    obtain ⟨hbody, hlexical⟩ := resolveAll_lexical body s
    exact ⟨hbody.within, fun _ h => forall_mem_append.mpr ⟨lock.uses_lexical h, hlexical _ h.nest⟩⟩
  | ret value =>
    cases value with
    | none => exact ⟨.refl s, fun _ _ => nofun⟩
    | some e => exact ⟨.refl s, fun _ h => e.uses_lexical h⟩

theorem resolveAll_lexical (ss : List Stmt) (s : Scope) :
    s.Binds (opensAll (resolveAll ss s).1) (declarationsAll (resolveAll ss s).1)
      (resolveAll ss s).2 ∧
      ∀ scopes : Scopes, scopes.Mirrors s → ∀ u ∈ usesInAll scopes (resolveAll ss s).1,
        u.Lexical := by
  cases ss with
  | nil => exact ⟨.refl s, fun _ _ => nofun⟩
  | cons a ss =>
    obtain ⟨hfirst, hfirstLexical⟩ := resolve_lexical a s
    obtain ⟨hrest, hrestLexical⟩ := resolveAll_lexical ss (resolve a s).2
    refine ⟨hfirst.trans hrest, fun scopes h => forall_mem_append.mpr ⟨hfirstLexical scopes h, ?_⟩⟩
    exact hrestLexical _ (h.add hfirst)

theorem resolveElse_lexical (no : Option Stmt) (s : Scope) :
    s.Binds [] (declarationsElse (resolveElse no s).1) (resolveElse no s).2 ∧
      ∀ scopes : Scopes, scopes.Mirrors s → ∀ u ∈ usesInElse scopes (resolveElse no s).1,
        u.Lexical := by
  cases no with
  | none => exact ⟨.refl s, fun _ _ => nofun⟩
  | some a =>
    obtain ⟨hbinds, hlexical⟩ := resolve_lexical a s
    exact ⟨hbinds.within, fun _ h => hlexical _ h.nest⟩

theorem resolveFinal_lexical (final : Option (List Stmt)) (s : Scope) :
    s.Binds [] (declarationsFinal (resolveFinal final s).1) (resolveFinal final s).2 ∧
      ∀ scopes : Scopes, scopes.Mirrors s → ∀ u ∈ usesInFinal scopes (resolveFinal final s).1,
        u.Lexical := by
  cases final with
  | none => exact ⟨.refl s, fun _ _ => nofun⟩
  | some body =>
    obtain ⟨hbinds, hlexical⟩ := resolveAll_lexical body s
    exact ⟨hbinds.within, fun _ h => hlexical _ h.nest⟩

theorem resolveCases_lexical (cs : List SwitchCase) (s : Scope) :
    s.Binds (opensCases (resolveCases cs s).1) (declarationsCases (resolveCases cs s).1)
      (resolveCases cs s).2 ∧
      ∀ scopes : Scopes, scopes.Mirrors s → ∀ u ∈ usesInCases scopes (resolveCases cs s).1,
        u.Lexical := by
  cases cs with
  | nil => exact ⟨.refl s, fun _ _ => nofun⟩
  | cons c cs =>
    obtain ⟨labels, isDefault, body⟩ := c
    rw [resolveCases_cons]
    obtain ⟨hbody, hbodyLexical⟩ := resolveAll_lexical body s
    obtain ⟨hrest, hrestLexical⟩ := resolveCases_lexical cs (resolveAll body s).2
    refine ⟨hbody.trans hrest, fun scopes h => forall_mem_append.mpr ⟨?_, ?_⟩⟩
    · exact forall_mem_append.mpr ⟨Expr.usesAll_lexical h labels, hbodyLexical scopes h⟩
    · exact hrestLexical _ (h.add hbody)

theorem resolveCatches_lexical (cs : List CatchClause) (s : Scope) :
    s.Binds [] (declarationsCatches (resolveCatches cs s).1) (resolveCatches cs s).2 ∧
      ∀ scopes : Scopes, scopes.Mirrors s → ∀ u ∈ usesInCatches scopes (resolveCatches cs s).1,
        u.Lexical := by
  cases cs with
  | nil => exact ⟨.refl s, fun _ _ => nofun⟩
  | cons c cs =>
    obtain ⟨param, types, body⟩ := c
    have hparam := s.define_binds param.name (CatchClause.paramTypeOf types) .localVar
    obtain ⟨hbody, hbodyLexical⟩ := resolveAll_lexical body
      (Scope.define param.name (CatchClause.paramTypeOf types) .localVar s).2
    have hfirst := (hparam.trans hbody).within
    obtain ⟨hrest, hrestLexical⟩ := resolveCatches_lexical cs ⟨s.names, (resolveAll body
      (Scope.define param.name (CatchClause.paramTypeOf types) .localVar s).2).2.symbols⟩
    refine ⟨hfirst.trans hrest, fun scopes h => forall_mem_append.mpr ⟨?_, ?_⟩⟩
    · exact hbodyLexical _ (h.nest.add hparam)
    · exact hrestLexical scopes h

end

end Stmt

theorem Param.resolveAll_binds (ps : List Param) (s : Scope) :
    s.Binds ((ps.mapM Param.resolve s).1.map Param.declaration)
      ((ps.mapM Param.resolve s).1.map Param.declaration)
      (ps.mapM Param.resolve s).2 := by
  induction ps generalizing s with
  | nil => exact .refl s
  | cons p ps ih =>
    rw [Param.mapM_resolve_cons]
    exact (s.define_binds p.name.name p.type .parameter).trans (ih _)

/-! ## Scopes hold declarations of the tree -/

/-- All declarations around the use are among these. -/
def Use.Within (all : List Declaration) (u : Use) : Prop := u.scopes.flatten ⊆ all

section Within

variable {all : List Declaration} {scopes : Scopes}

theorem Scopes.add_within {ds : List Declaration} (h : scopes.flatten ⊆ all) (hds : ds ⊆ all) :
    (scopes.add ds).flatten ⊆ all := by
  cases scopes with
  | nil => simpa [Scopes.add] using hds
  | cons =>
    simp only [flatten_cons, append_subset] at h
    simp only [Scopes.add, flatten_cons, append_subset]
    exact ⟨⟨h.1, hds⟩, h.2⟩

theorem Expr.within_uses (h : scopes.flatten ⊆ all) (e : Expr) :
    ∀ u ∈ e.usesIn scopes, u.Within all :=
  forall_mem_map.mpr fun _ _ => h

theorem Expr.within_usesAll (h : scopes.flatten ⊆ all) (es : List Expr) :
    ∀ u ∈ Expr.usesInAll scopes es, u.Within all :=
  forall_mem_map.mpr fun _ _ => h

theorem Expr.within_uses? (h : scopes.flatten ⊆ all) (e : Option Expr) :
    ∀ u ∈ Expr.usesIn? scopes e, u.Within all := by
  cases e with
  | none => exact nofun
  | some e => exact e.within_uses h

theorem LocalDecl.within_uses {ds : List LocalDecl} (h : scopes.flatten ⊆ all)
    (hds : ds.map LocalDecl.declaration ⊆ all) :
    ∀ u ∈ LocalDecl.usesInAll scopes ds, u.Within all := by
  induction ds generalizing scopes with
  | nil => exact nofun
  | cons d ds ih =>
    obtain ⟨hd, hds⟩ := cons_subset.mp hds
    refine forall_mem_append.mpr ⟨Expr.within_uses? h d.init, ih (Scopes.add_within h ?_) hds⟩
    exact cons_subset.mpr ⟨hd, nil_subset _⟩

namespace Stmt

theorem opens_subset (a : Stmt) : a.opens ⊆ a.declarations := by
  cases a with
  | declare => exact List.Subset.refl _
  | labeled label body => exact opens_subset body
  | _ => exact nil_subset _

theorem opensAll_subset (ss : List Stmt) : opensAll ss ⊆ declarationsAll ss := by
  induction ss with
  | nil => exact nil_subset _
  | cons a ss ih =>
    refine append_subset.mpr ⟨?_, ?_⟩
    · exact List.Subset.trans a.opens_subset (subset_append_left ..)
    · exact List.Subset.trans ih (subset_append_right ..)

mutual

theorem within_uses (a : Stmt) {scopes : Scopes} (h : scopes.flatten ⊆ all)
    (ha : a.declarations ⊆ all) : ∀ u ∈ a.usesIn scopes, u.Within all := by
  cases a with
  | expr e | raise e => exact e.within_uses h
  | declare d => exact Expr.within_uses? h d.init
  | block body => exact within_usesAll body h ha
  | cond test yes no =>
    obtain ⟨hyes, hno⟩ := append_subset.mp ha
    exact forall_mem_append.mpr ⟨forall_mem_append.mpr ⟨test.within_uses h, within_uses yes h hyes⟩,
      within_usesElse no h hno⟩
  | whileLoop test body => exact forall_mem_append.mpr ⟨test.within_uses h, within_uses body h ha⟩
  | doWhile body test => exact forall_mem_append.mpr ⟨within_uses body h ha, test.within_uses h⟩
  | forLoop init test update body =>
    obtain ⟨hinit, hbody⟩ := append_subset.mp ha
    have hinner : (opensAll init :: scopes).flatten ⊆ all :=
      append_subset.mpr ⟨List.Subset.trans (opensAll_subset init) hinit, h⟩
    exact forall_mem_append.mpr ⟨forall_mem_append.mpr ⟨forall_mem_append.mpr
      ⟨within_usesAll init h hinit, Expr.within_uses? hinner test⟩,
      Expr.within_usesAll hinner update⟩,
      within_uses body hinner hbody⟩
  | forEach var iterable body =>
    obtain ⟨hvar, hbody⟩ := cons_subset.mp ha
    have hinner : ([var.declaration] :: scopes).flatten ⊆ all := cons_subset.mpr ⟨hvar, h⟩
    exact forall_mem_append.mpr ⟨forall_mem_append.mpr ⟨iterable.within_uses h,
      Expr.within_uses? h var.init⟩, within_uses body hinner hbody⟩
  | switch selector cases =>
    exact forall_mem_append.mpr ⟨selector.within_uses h, within_usesCases cases h ha⟩
  | tryCatch resources body catches final =>
    obtain ⟨ha, hfinal⟩ := append_subset.mp ha
    obtain ⟨ha, hcatches⟩ := append_subset.mp ha
    obtain ⟨hopen, hbody⟩ := append_subset.mp ha
    have hinner : (resources.map LocalDecl.declaration :: scopes).flatten ⊆ all :=
      append_subset.mpr ⟨hopen, h⟩
    exact forall_mem_append.mpr ⟨forall_mem_append.mpr ⟨forall_mem_append.mpr
      ⟨LocalDecl.within_uses h hopen, within_usesAll body hinner hbody⟩,
      within_usesCatches catches h hcatches⟩,
      within_usesFinal final h hfinal⟩
  | labeled label body => exact within_uses body h ha
  | synchronized lock body =>
    exact forall_mem_append.mpr ⟨lock.within_uses h, within_usesAll body h ha⟩
  | ret value => exact Expr.within_uses? h value
  | _ => exact nofun

theorem within_usesAll (ss : List Stmt) {scopes : Scopes} (h : scopes.flatten ⊆ all)
    (hss : declarationsAll ss ⊆ all) : ∀ u ∈ usesInAll scopes ss, u.Within all := by
  cases ss with
  | nil => exact nofun
  | cons a ss =>
    obtain ⟨ha, hss⟩ := append_subset.mp hss
    have hopens := List.Subset.trans a.opens_subset ha
    exact forall_mem_append.mpr ⟨within_uses a h ha,
      within_usesAll ss (Scopes.add_within h hopens) hss⟩

theorem within_usesElse (no : Option Stmt) {scopes : Scopes} (h : scopes.flatten ⊆ all)
    (hno : declarationsElse no ⊆ all) : ∀ u ∈ usesInElse scopes no, u.Within all := by
  cases no with
  | none => exact nofun
  | some a => exact within_uses a h hno

theorem within_usesFinal (final : Option (List Stmt)) {scopes : Scopes} (h : scopes.flatten ⊆ all)
    (hfinal : declarationsFinal final ⊆ all) : ∀ u ∈ usesInFinal scopes final, u.Within all := by
  cases final with
  | none => exact nofun
  | some body => exact within_usesAll body h hfinal

theorem within_usesCases (cs : List SwitchCase) {scopes : Scopes} (h : scopes.flatten ⊆ all)
    (hcs : declarationsCases cs ⊆ all) : ∀ u ∈ usesInCases scopes cs, u.Within all := by
  cases cs with
  | nil => exact nofun
  | cons c cs =>
    obtain ⟨labels, isDefault, body⟩ := c
    obtain ⟨hbody, hcs⟩ := append_subset.mp hcs
    have hopens := List.Subset.trans (opensAll_subset body) hbody
    exact forall_mem_append.mpr ⟨forall_mem_append.mpr ⟨Expr.within_usesAll h labels,
      within_usesAll body h hbody⟩, within_usesCases cs (Scopes.add_within h hopens) hcs⟩

theorem within_usesCatches (cs : List CatchClause) {scopes : Scopes} (h : scopes.flatten ⊆ all)
    (hcs : declarationsCatches cs ⊆ all) : ∀ u ∈ usesInCatches scopes cs, u.Within all := by
  cases cs with
  | nil => exact nofun
  | cons c cs =>
    obtain ⟨param, types, body⟩ := c
    obtain ⟨hparam, hcs⟩ := cons_subset.mp hcs
    obtain ⟨hbody, hcs⟩ := append_subset.mp hcs
    have hinner : ([CatchClause.declarationOf param types] :: scopes).flatten ⊆ all :=
      cons_subset.mpr ⟨hparam, h⟩
    exact forall_mem_append.mpr ⟨within_usesAll body hinner hbody, within_usesCatches cs h hcs⟩

end

end Stmt

end Within

/-! ## Procedures -/

theorem Procedure.within_uses (p : Procedure) : ∀ u ∈ p.uses, u.Within p.declarations := by
  refine Stmt.within_usesAll p.body (append_subset.mpr ⟨nil_subset _, ?_⟩) (subset_append_right ..)
  exact append_subset.mpr ⟨subset_append_left .., nil_subset _⟩

theorem Scopes.select_mem {scopes : Scopes} {name : String} {d : Declaration}
    (h : scopes.select name = some d) : d ∈ scopes.flatten := by
  rw [select_eq] at h
  obtain ⟨scope, hscope, hd⟩ := mem_flatMap.mp (mem_of_find?_eq_some h)
  exact mem_flatten.mpr ⟨scope, hscope, mem_reverse.mp hd⟩

theorem Procedure.resolve_binds (p : Procedure) :
    (Scope.mk [] .empty).Binds (p.resolve.1.params.map Param.declaration) p.resolve.1.declarations
        ⟨((p.params.mapM Param.resolve ⟨[], .empty⟩).2).names, p.resolve.2⟩ ∧
      ∀ u ∈ p.resolve.1.uses, u.Lexical := by
  have hparams := Param.resolveAll_binds p.params ⟨[], .empty⟩
  obtain ⟨hbody, hlexical⟩ :=
    Stmt.resolveAll_lexical p.body (p.params.mapM Param.resolve ⟨[], .empty⟩).2
  have hboth := hparams.trans hbody.within
  rw [List.append_nil] at hboth
  have hstart : Scopes.Mirrors [[]] ⟨[], .empty⟩ := rfl
  exact ⟨hboth, hlexical _ (hstart.add hparams).nest⟩

/-- What a procedure and a table are to a procedure that they resolve. -/
structure Procedure.ResolvesTo (p q : Procedure) (table : SymbolTable) : Prop where
  /-- nothing but symbols changes -/
  same : q.unresolved = p.unresolved
  /-- symbols that are there already do not matter -/
  blind : ∀ p' : Procedure, p'.unresolved = p.unresolved → p'.resolve = (q, table)
  /-- a resolved procedure stays as it is -/
  stable : q.resolve = (q, table)
  /-- declarations carry the identities in order, each its own -/
  numbered : q.declarations.map (fun d => d.ident.symbol) =
    (List.range table.size).map fun i => some ⟨i⟩
  /-- the table holds at each identity the name and type of its declaration -/
  listed : table.symbols.toList = q.declarations.map Declaration.info
  /-- a use has the variable of the declaration that lexical scoping selects, and none if there is
  none -/
  lexical : ∀ u ∈ q.uses, u.Lexical
  /-- what scoping selects is a declaration of the procedure -/
  declared : ∀ u ∈ q.uses, ∀ d, u.scopes.select u.ident.name = some d → d ∈ q.declarations

/-- **Resolution is lexical scoping**, for every procedure. -/
theorem Procedure.resolution_lexical (p : Procedure) : p.ResolvesTo p.resolve.1 p.resolve.2 := by
  obtain ⟨hbinds, hlexical⟩ := p.resolve_binds
  have hblind : ∀ p' : Procedure, p'.unresolved = p.unresolved → p'.resolve = p.resolve := by
    intro p' heq
    rw [← p'.resolve_unresolved, heq, p.resolve_unresolved]
  refine ⟨p.unresolved_resolve, hblind, hblind _ p.unresolved_resolve, ?_, ?_, hlexical, ?_⟩
  · have hsize : p.resolve.2.size = p.resolve.1.declarations.length :=
      hbinds.size.trans (Nat.zero_add _)
    rw [hsize, range_eq_range']
    exact hbinds.ids
  · exact hbinds.table
  · intro u hu d hd
    exact p.resolve.1.within_uses u hu (Scopes.select_mem hd)

/-- A procedure with a variable that hides another one from its own first value on. -/
def Procedure.shadowing : Procedure where
  name := "shadow"
  params := [⟨.free "x", .named "int"⟩]
  returnType := none
  body := [.block [.declare ⟨.free "x", .named "int", some (.ident (.free "x"))⟩ .unknown,
    .expr (.call "step" [.ident (.free "x")]) .unknown] .unknown,
      .expr (.ident (.free "y")) .unknown]
  location := .unknown

/-- There the first value is that of the parameter, the value that is emitted is that of the local,
and the other name is free. -/
theorem Procedure.resolution_lexical_shadowing :
    shadowing.ResolvesTo shadowing.resolve.1 shadowing.resolve.2 ∧
    shadowing.resolve.1.uses.map (fun u => u.ident.symbol) = [some ⟨0⟩, some ⟨1⟩, none] :=
  ⟨resolution_lexical shadowing, rfl⟩

end Resumable
