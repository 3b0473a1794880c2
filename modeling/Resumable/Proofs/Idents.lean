import Resumable.Proofs.Lexical
import Resumable.Proofs.Origin

/-!
# Names that code takes over

A name in the ops of a class is one of the source with its variable, if it denotes one, or the name
of a variable that lowering made. So what holds of all names that denote a variable and of the names
of a body holds of all names in code.

* `Stmt.Idents` says it of the names of a statement itself, and `AllIdents` of those of statements
  at any depth;
* `resolveAll_idents`: it holds of resolved statements if it holds of every name that is resolved in
  the scope;
* `Origin.Traces.idents`: it holds of the names in ops that are traced back to a body.
-/

namespace Resumable

open List

variable {Q : Ident → Prop}

/-- The names in the expression have the property. -/
def Expr.Idents (Q : Ident → Prop) (e : Expr) : Prop := ∀ x ∈ e.occurrences, Q x

namespace Stmt

/-- The names that a statement itself declares. -/
def heads : Stmt → List Ident
  | declare d _ | forEach d _ _ _ => [d.name]
  | tryCatch resources _ catches _ _ =>
    resources.map LocalDecl.name ++ catches.map CatchClause.param
  | _ => []

/-- The names of the statement itself have the property. -/
structure Idents (Q : Ident → Prop) (s : Stmt) : Prop where
  exprs : ∀ e ∈ s.exprs, e.Idents Q
  heads : ∀ x ∈ s.heads, Q x

end Stmt

/-- The names of all statements, at any depth, have the property. -/
def AllIdents (Q : Ident → Prop) (body : List Stmt) : Prop :=
  ∀ path s, Lies body path s → s.Idents Q

namespace AllIdents

variable {s : Stmt} {ss ts : List Stmt}

theorem nil : AllIdents Q [] := by
  intro path s h
  rcases h.head with ⟨-, hs⟩ | ⟨t, ht, -⟩
  · cases hs
  · cases ht

theorem append : AllIdents Q (ss ++ ts) ↔ AllIdents Q ss ∧ AllIdents Q ts := by
  constructor
  · exact fun h => ⟨fun path s hs => h path s (hs.mono fun t ht => mem_append_left _ ht),
      fun path s hs => h path s (hs.mono fun t ht => mem_append_right _ ht)⟩
  · rintro ⟨hss, hts⟩ path s hs
    rcases hs.head with ⟨rfl, hmem⟩ | ⟨t, ht, inner, rfl, hlies⟩
    · exact (mem_append.mp hmem).elim (fun h => hss [] s (.top h)) fun h => hts [] s (.top h)
    · exact (mem_append.mp ht).elim (fun h => hss _ s ((Lies.top h).within hlies))
        fun h => hts _ s ((Lies.top h).within hlies)

theorem of_mem (h : AllIdents Q ss) (hs : s ∈ ss) : AllIdents Q [s] :=
  fun path t ht => h path t (ht.mono fun _ hmem => mem_singleton.mp hmem ▸ hs)

theorem tail (h : AllIdents Q (s :: ss)) : AllIdents Q ss :=
  fun path t ht => h path t (ht.mono fun _ => mem_cons_of_mem _)

theorem children (h : AllIdents Q [s]) : AllIdents Q s.children :=
  fun _ t ht => h _ t ((Lies.top mem_cons_self).within ht)

/-- From a statement itself and those directly inside it. -/
theorem single (hs : s.Idents Q) (h : AllIdents Q s.children) : AllIdents Q [s] := by
  intro path t ht
  rcases ht.head with ⟨-, hmem⟩ | ⟨u, hu, inner, rfl, hlies⟩
  · exact mem_singleton.mp hmem ▸ hs
  · cases mem_singleton.mp hu
    exact h inner t hlies

theorem cons (hs : AllIdents Q [s]) (h : AllIdents Q ss) : AllIdents Q (s :: ss) :=
  append.mpr ⟨hs, h⟩

end AllIdents

/-! ## Resolved statements -/

section Resolution

variable {names : List (String × SymbolId)}

/-- All names have the property once they are resolved. -/
def Covers (Q : Ident → Prop) (names : List (String × SymbolId)) : Prop :=
  ∀ x : Ident, Q (x.resolve names)

variable (hQ : ∀ x : Ident, x.symbol.isSome → Q x)
include hQ

theorem Covers.define (h : Covers Q names) (name : String) (id : SymbolId) :
    Covers Q ((name, id) :: names) := by
  intro x
  by_cases hx : x.name = name
  · exact hQ _ (by simp [Ident.resolve, Scope.lookup?, hx])
  · have hsame : x.resolve ((name, id) :: names) = x.resolve names := by
      simp [Ident.resolve, Scope.lookup?, lookup_cons, beq_false_of_ne hx]
    exact hsame ▸ h x

omit hQ in
theorem Expr.resolve_idents (h : Covers Q names) (e : Expr) : (e.resolve names).Idents Q := by
  intro x hx
  rw [occurrences_resolve] at hx
  obtain ⟨y, -, rfl⟩ := mem_map.mp hx
  exact h y

/-- What comes into force later on are variables. -/
theorem Covers.binds {s s' : Scope} {opened declared : List Declaration} (h : Covers Q s.names)
    (hb : s.Binds opened declared s') : Covers Q s'.names := by
  obtain ⟨new, old, hnames, -, hold⟩ := map_eq_append_iff.mp hb.idents
  have hinjective : Function.Injective fun n : String × SymbolId => Ident.mk n.1 (some n.2) := by
    rintro ⟨n, x⟩ ⟨n', x'⟩ heq
    simpa using heq
  rw [hnames, map_injective_iff.mpr hinjective hold]
  clear hnames
  induction new with
  | nil => exact h
  | cons n new ih => exact ih.define hQ n.1 n.2

omit hQ in
theorem Expr.resolveAll_idents (h : Covers Q names) (es : List Expr) :
    ∀ e ∈ Expr.resolveAll names es, e.Idents Q := by
  induction es with
  | nil => exact nofun
  | cons e es ih => exact forall_mem_cons.mpr ⟨e.resolve_idents h, ih⟩

omit hQ in
theorem Expr.resolve?_idents (h : Covers Q names) (e : Option Expr) :
    ∀ a ∈ (e.map (Expr.resolve names)).toList, a.Idents Q := by
  cases e with
  | none => exact nofun
  | some e => exact forall_mem_singleton.mpr (e.resolve_idents h)

theorem LocalDecl.resolve_idents {s : Scope} (h : Covers Q s.names) (d : LocalDecl) :
    Q (d.resolve s).1.name ∧ ∀ e ∈ (d.resolve s).1.init.toList, e.Idents Q := by
  rw [d.resolve_eq s]
  exact ⟨hQ _ rfl, Expr.resolve?_idents h d.init⟩

theorem LocalDecl.resolveAll_idents (ds : List LocalDecl) {s : Scope} (h : Covers Q s.names) :
    ∀ d ∈ (ds.mapM resolve s).1, Q d.name ∧ ∀ e ∈ d.init.toList, e.Idents Q := by
  induction ds generalizing s with
  | nil => exact nofun
  | cons d ds ih =>
    rw [mapM_resolve_cons]
    exact forall_mem_cons.mpr ⟨d.resolve_idents hQ h, ih (h.binds hQ (d.resolve_binds s))⟩

omit hQ in
theorem Stmt.Idents.of_exprs {s : Stmt} (h : ∀ e ∈ s.exprs, e.Idents Q) (hheads : s.heads = []) :
    s.Idents Q :=
  ⟨h, hheads ▸ nofun⟩

end Resolution

namespace Stmt

mutual

/-- The names of a resolved statement have a property that variables have, and names that are
resolved in the scope. -/
theorem resolve_idents (hQ : ∀ x : Ident, x.symbol.isSome → Q x) (a : Stmt) {s : Scope}
    (h : Covers Q s.names) : AllIdents Q [(resolve a s).1] := by
  cases a with
  | empty | brk | cont => exact .single (.of_exprs nofun rfl) .nil
  | expr e
  | raise e => exact .single (.of_exprs (forall_mem_singleton.mpr (e.resolve_idents h)) rfl) .nil
  | declare d =>
    obtain ⟨hname, hinit⟩ := d.resolve_idents hQ h
    exact .single ⟨hinit, forall_mem_singleton.mpr hname⟩ .nil
  | block body => exact .single (.of_exprs nofun rfl) (resolveAll_idents hQ body h)
  | cond test yes no =>
    have htest := forall_mem_singleton.mpr (test.resolve_idents h)
    have hno := resolveElse_idents hQ no (s := ⟨s.names, (resolve yes s).2.symbols⟩) h
    exact .single (.of_exprs htest rfl) (.cons (resolve_idents hQ yes h) hno)
  | whileLoop test body | doWhile body test =>
    exact .single (.of_exprs (forall_mem_singleton.mpr (test.resolve_idents h)) rfl)
      (resolve_idents hQ body h)
  | forLoop init test update body =>
    rw [resolve_forLoop]
    have hinner := h.binds hQ (resolveAll_lexical init s).1
    refine .single (.of_exprs ?_ rfl)
      (AllIdents.append.mpr ⟨resolveAll_idents hQ init h, resolve_idents hQ body hinner⟩)
    exact forall_mem_append.mpr ⟨Expr.resolve?_idents hinner test,
      Expr.resolveAll_idents hinner update⟩
  | forEach var iterable body =>
    obtain ⟨hname, hinit⟩ := var.resolve_idents hQ h
    refine .single ⟨forall_mem_cons.mpr ⟨iterable.resolve_idents h, hinit⟩,
      forall_mem_singleton.mpr hname⟩ ?_
    exact resolve_idents hQ body (h.binds hQ (var.resolve_binds s))
  | switch selector cases =>
    obtain ⟨hbodies, hlabels⟩ := resolveCases_idents hQ cases h
    exact .single (.of_exprs (forall_mem_cons.mpr ⟨selector.resolve_idents h, hlabels⟩) rfl) hbodies
  | tryCatch resources body catches final =>
    rw [resolve_tryCatch]
    have hresources := LocalDecl.resolveAll_idents hQ resources h
    have hopen := h.binds hQ (LocalDecl.resolveAll_lexical resources s).1
    obtain ⟨hbodies, hparams⟩ := resolveCatches_idents hQ catches
      (s := ⟨s.names, (resolveAll body (resources.mapM LocalDecl.resolve s).2).2.symbols⟩) h
    have hlast := Covers.binds hQ
        (s := ⟨s.names, (resolveAll body (resources.mapM LocalDecl.resolve s).2).2.symbols⟩) h
      (resolveCatches_lexical catches _).1
    refine .single ⟨fun e he => ?_, forall_mem_append.mpr
      ⟨forall_mem_map.mpr fun d hd => ?_, hparams⟩⟩
      (AllIdents.append.mpr ⟨AllIdents.append.mpr ⟨resolveAll_idents hQ body hopen, hbodies⟩,
        resolveFinal_idents hQ final hlast⟩)
    · obtain ⟨d, hd, he⟩ := mem_flatMap.mp he
      exact (hresources d hd).2 e he
    · exact (hresources d hd).1
  | labeled label body => exact .single (.of_exprs nofun rfl) (resolve_idents hQ body h)
  | synchronized lock body =>
    exact .single (.of_exprs (forall_mem_singleton.mpr (lock.resolve_idents h)) rfl)
      (resolveAll_idents hQ body h)
  | ret value =>
    cases value with
    | none => exact .single (.of_exprs nofun rfl) .nil
    | some e => exact .single (.of_exprs (forall_mem_singleton.mpr (e.resolve_idents h)) rfl) .nil

theorem resolveAll_idents (hQ : ∀ x : Ident, x.symbol.isSome → Q x) (ss : List Stmt) {s : Scope}
    (h : Covers Q s.names) : AllIdents Q (resolveAll ss s).1 := by
  cases ss with
  | nil => exact .nil
  | cons a ss =>
    exact .cons (resolve_idents hQ a h)
      (resolveAll_idents hQ ss (h.binds hQ (resolve_lexical a s).1))

theorem resolveElse_idents (hQ : ∀ x : Ident, x.symbol.isSome → Q x) (no : Option Stmt) {s : Scope}
    (h : Covers Q s.names) : AllIdents Q (resolveElse no s).1.toList := by
  cases no with
  | none => exact .nil
  | some a => exact resolve_idents hQ a h

theorem resolveFinal_idents (hQ : ∀ x : Ident, x.symbol.isSome → Q x) (final : Option (List Stmt))
    {s : Scope} (h : Covers Q s.names) : AllIdents Q ((resolveFinal final s).1.getD []) := by
  cases final with
  | none => exact .nil
  | some body => exact resolveAll_idents hQ body h

theorem resolveCases_idents (hQ : ∀ x : Ident, x.symbol.isSome → Q x) (cs : List SwitchCase)
    {s : Scope} (h : Covers Q s.names) :
    AllIdents Q ((resolveCases cs s).1.flatMap SwitchCase.body) ∧
      ∀ e ∈ (resolveCases cs s).1.flatMap SwitchCase.labels, e.Idents Q := by
  cases cs with
  | nil => exact ⟨.nil, nofun⟩
  | cons c cs =>
    obtain ⟨labels, isDefault, body⟩ := c
    rw [resolveCases_cons]
    obtain ⟨hbodies, hlabels⟩ :=
      resolveCases_idents hQ cs (h.binds hQ (resolveAll_lexical body s).1)
    exact ⟨AllIdents.append.mpr ⟨resolveAll_idents hQ body h, hbodies⟩,
      forall_mem_append.mpr ⟨Expr.resolveAll_idents h labels, hlabels⟩⟩

theorem resolveCatches_idents (hQ : ∀ x : Ident, x.symbol.isSome → Q x) (cs : List CatchClause)
    {s : Scope} (h : Covers Q s.names) :
    AllIdents Q ((resolveCatches cs s).1.flatMap CatchClause.body) ∧
      ∀ x ∈ (resolveCatches cs s).1.map CatchClause.param, Q x := by
  cases cs with
  | nil => exact ⟨.nil, nofun⟩
  | cons c cs =>
    obtain ⟨param, types, body⟩ := c
    have hparam := h.binds hQ (s.define_binds param.name (CatchClause.paramTypeOf types) .localVar)
    obtain ⟨hbodies, hparams⟩ := resolveCatches_idents hQ cs (s := ⟨s.names, (resolveAll body
      (Scope.define param.name (CatchClause.paramTypeOf types) .localVar s).2).2.symbols⟩) h
    exact ⟨AllIdents.append.mpr ⟨resolveAll_idents hQ body hparam, hbodies⟩,
      forall_mem_cons.mpr ⟨hQ _ rfl, hparams⟩⟩

end

end Stmt

/-! ## Code -/

/-- The names in the expressions of the op, and in a statement that it keeps, have the property. -/
def Op.Idents (Q : Ident → Prop) (op : Op) : Prop :=
  (∀ e ∈ op.exprs, e.Idents Q) ∧ ∀ s, op = .plain s → AllIdents Q [s]

namespace Lowering

theorem idents_of_asMarker {m : Markers} {e arg : Expr} {kind : MarkerKind}
    (h : e.asMarker? m = some (kind, arg)) (he : e.Idents Q) : arg.Idents Q := by
  obtain ⟨callee, rfl⟩ := call_of_asMarker? h
  exact fun x hx => he x (mem_append_left _ hx)

section Traces

variable {O : Origin} {m : Markers} (hQ : ∀ x : Ident, x.symbol.isSome → Q x)
  (hbody : AllIdents Q O.body)
include hQ hbody

omit hQ in
theorem Origin.Stands.idents {e : Expr} (h : O.Stands m e) : e.Idents Q := by
  obtain ⟨⟨path, s, hs, he⟩, -⟩ := h
  rw [Stmt.ordinary] at he
  split at he
  · next kind arg hmarker =>
    cases mem_singleton.mp he
    cases s with
    | expr e => exact idents_of_asMarker hmarker ((hbody path _ hs).exprs e mem_cons_self)
    | _ => cases hmarker
  · exact (hbody path s hs).exprs e he

theorem Origin.Speaks.idents {e : Expr} (h : O.Speaks m e) : e.Idents Q := by
  cases h with
  | source he => exact he.idents hbody
  | iterator he =>
    exact fun x hx => he.idents hbody x (by simpa [Expr.occurrences, Expr.occurrencesAll] using hx)
  | call hx | waits hx => exact forall_mem_singleton.mpr (hQ _ (by rw [hx]; rfl))
  | literal => exact nofun

/-- **The names in code are those of its statements**, or name a variable that lowering made. -/
theorem Origin.Traces.idents {op : Op} (h : O.Traces m op) : op.Idents Q := by
  refine ⟨fun e he => (h.exprs e he).idents hQ hbody, fun s hs => ?_⟩
  obtain ⟨-, -, ⟨⟨path, hpath⟩, -⟩ | ⟨e, loc, rfl, he⟩⟩ := h.plain s hs
  · intro inner t ht
    obtain ⟨path', hpath'⟩ := hpath.inside ht
    exact hbody path' t hpath'
  · exact .single (.of_exprs (forall_mem_singleton.mpr (he.idents hbody)) rfl) .nil

end Traces

end Lowering

end Resumable
