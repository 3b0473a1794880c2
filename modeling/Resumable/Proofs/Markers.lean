import Resumable.Proofs.Origin

/-!
# What becomes of markers

A marker says where a value is emitted, so none may be left as a call of a function.

* `Op.Holds` are the expressions that occur in an op, those of plain statements at any depth
  included;
* `Stmt.Orderly` says that markers stand in a statement, at any depth, only where they are
  statements of their own, or among the labels of cases, which nobody looks at in a plain switch;
* `Made.orderly`: code is made of orderly statements only.
-/

namespace Resumable

open List

/-! ## Expressions of ops -/

/-- The expression occurs in the op: it is one of its own, or one in its statement at any depth. -/
inductive Op.Holds : Op → Expr → Prop where
  | own {op e} (he : e ∈ op.exprs) : Holds op e
  | plain {s path t e} (ht : Lies [s] path t) (he : e ∈ t.exprs) : Holds (.plain s) e

namespace Stmt

/-- The labels of the cases of a switch. -/
def caseLabels : Stmt → List Expr
  | switch _ cases _ => cases.flatMap SwitchCase.labels
  | _ => []

/-- The expressions of a statement itself in which no marker may stand, without the labels of cases.
-/
def screened (m : Markers) : Stmt → List Expr
  | switch selector _ _ => [selector]
  | s => s.ordinary m

/-- In the statement, at any depth, no marker stands where it may not, except among the labels of
cases. -/
def Orderly (m : Markers) (s : Stmt) : Prop :=
  ∀ path t, Lies [s] path t → ∀ e ∈ t.screened m, e.findMarker? m = none

variable {m : Markers} {w : Enclosure} {s : Stmt}

theorem screened_of_not_switch (h : s.isSwitch = false) : s.screened m = s.ordinary m := by
  cases s with
  | switch selector cases => cases h
  | _ => rfl

theorem mem_screened_or_label {e : Expr} (he : e ∈ s.ordinary m) :
    e ∈ s.screened m ∨ e ∈ s.caseLabels := by
  cases s with
  | switch =>
    rcases mem_cons.mp he with rfl | he
    · exact .inl mem_cons_self
    · exact .inr he
  | _ => exact .inl he

theorem ordinary_of_screened {e : Expr} (he : e ∈ s.screened m) : e ∈ s.ordinary m := by
  cases s with
  | switch => exact mem_singleton.mp he ▸ mem_cons_self
  | _ => exact he

theorem Orderly.of_children (hown : ∀ e ∈ s.screened m, e.findMarker? m = none)
    (hchildren : ∀ t ∈ s.children, t.Orderly m) : s.Orderly m := by
  intro path t ht
  rcases ht.head with ⟨-, hmem⟩ | ⟨u, hu, inner, rfl, hlies⟩
  · cases mem_singleton.mp hmem
    exact hown
  · cases mem_singleton.mp hu
    rcases hlies.head with ⟨rfl, hmem⟩ | ⟨v, hv, inside, rfl, hinside⟩
    · exact hchildren t hmem [] t (.top mem_cons_self)
    · exact hchildren v hv (inside ++ [v]) t ((Lies.top mem_cons_self).within hinside)

theorem marker?_of_leaves (h : s.leaves m w = false) : s.marker? m = none := by
  have hmarker := isMarker_of_leaves h
  cases s with
  | expr => simpa [isMarker, marker?] using hmarker
  | _ => rfl

/-- The expressions of a statement that nothing leaves hold no markers, but for labels of cases. -/
theorem screened_of_leaves (hfits : s.HeadFits) (h : s.leaves m w = false) :
    ∀ e ∈ s.screened m, e.findMarker? m = none := by
  have hone : ∀ {a : Expr}, (a.findMarker? m).isSome = false → ∀ e ∈ [a], e.findMarker? m = none :=
    fun ha e he => by
    cases mem_singleton.mp he
    simpa using ha
  have hopt : ∀ {a : Option Expr}, (a.any fun e => (e.findMarker? m).isSome) = false →
      ∀ e ∈ a.toList, e.findMarker? m = none := by
    intro a ha e he
    cases Option.mem_toList.mp he
    simpa using ha
  cases s with
  | expr =>
    rw [screened_of_not_switch rfl, ordinary, marker?_of_leaves h]
    exact hone h
  | raise => exact hone h
  | declare => exact hopt h
  | cond =>
    simp only [leaves, Bool.or_eq_false_iff] at h
    exact hone h.1.1
  | whileLoop | doWhile | switch | synchronized => exact hone (Bool.or_eq_false_iff.mp h).1
  | forLoop =>
    simp only [leaves, Bool.or_eq_false_iff] at h
    intro a ha
    rcases mem_append.mp ha with ha | ha
    · exact hopt h.1.1.2 a ha
    · simpa using any_eq_false.mp h.1.2 a ha
  | forEach var iterable body loc =>
    have hexprs : (forEach var iterable body loc).screened m = [iterable] := by
      show iterable :: var.init.toList = _
      rw [show var.init = none from hfits]
      rfl
    rw [hexprs]
    exact hone (Bool.or_eq_false_iff.mp h).1
  | tryCatch =>
    simp only [leaves, Bool.or_eq_false_iff] at h
    intro a ha
    obtain ⟨d, hd, ha⟩ := mem_flatMap.mp ha
    have hinit := any_eq_false.mp h.1.1.1 d hd
    exact hopt (Bool.not_eq_true _ ▸ hinit) a ha
  | ret => cases h
  | _ => exact forall_mem_nil _

/-- An expression in a plain statement holds no marker, or is a label of a case. -/
theorem exprs_of_plain {path : List Stmt} {t : Stmt} (hfits : t.HeadFits)
    (h : s.needsLowering m = false) (ht : Lies [s] path t) :
    ∀ e ∈ t.exprs, e.findMarker? m = none ∨ e ∈ t.caseLabels := by
  obtain ⟨w', hw'⟩ := leaves_of_lies h ht
  intro e he
  have hordinary : e ∈ t.ordinary m := by rwa [ordinary, marker?_of_leaves hw']
  exact (mem_screened_or_label hordinary).imp_left (screened_of_leaves hfits hw' e)

end Stmt

/-! ## Code -/

namespace Lowering

section Orderly

variable {m : Markers} {body : List Stmt} {ctx : Context} {L L' : Ledger} {cur : List Op}
  {ph : Phrase} {code : Code}

/-- A statement with statements in it is orderly if its own expressions hold no markers. -/
theorem orderly_of_exprs {s : Stmt} (hs : s.isExpr = false)
    (hown : ∀ e ∈ s.exprs, e.findMarker? m = none) (hchildren : ∀ t ∈ s.children, t.Orderly m) :
    s.Orderly m :=
  .of_children (fun e he => hown e (Stmt.ordinary_eq_exprs hs ▸ Stmt.ordinary_of_screened he))
    hchildren

/-- The argument of a marker is all that counts of it. -/
theorem orderly_marker {e arg : Expr} {kind : MarkerKind} {loc : Location}
    (he : e.asMarker? m = some (kind, arg)) (harg : arg.findMarker? m = none) :
    (Stmt.expr e loc).Orderly m := by
  refine .of_children (fun a ha => ?_) nofun
  have hordinary := Stmt.ordinary_of_screened ha
  rw [Stmt.ordinary, Stmt.marker?, he] at hordinary
  exact mem_singleton.mp hordinary ▸ harg

/-- **All that code is made of is orderly.** -/
theorem Made.orderly (hfits : ∀ path s, Lies body path s → s.HeadFits)
    (h : Made ctx L cur ph code L') (hlies : ∀ s ∈ ph.parts, ∃ path, Lies body path s) :
    ∀ s ∈ ph.parts, s.Orderly ctx.markers := by
  have hsingle : ∀ {m : Markers} {s : Stmt}, s.Orderly m → ∀ t ∈ [s], t.Orderly m :=
    fun hs t ht => mem_singleton.mp ht ▸ hs
  induction h with
  | @plain ctx L cur s hplain =>
    refine hsingle fun inner t ht e he => ?_
    obtain ⟨path, hpath⟩ := hlies s mem_cons_self
    obtain ⟨place, hplace⟩ := hpath.inside ht
    obtain ⟨w, hw⟩ := Stmt.leaves_of_lies hplain ht
    exact Stmt.screened_of_leaves (hfits place t hplace) hw e he
  | declare _ hinit =>
    exact hsingle (orderly_of_exprs rfl (fun e he => hinit e (Option.mem_toList.mp he))
      (forall_mem_nil _))
  | emit he harg | emitAll he harg => exact hsingle (orderly_marker he harg)
  | block _ _ ih | labeledLoop _ _ _ _ ih | labeled _ _ _ _ _ ih =>
    exact hsingle (orderly_of_exprs rfl (forall_mem_nil _) (ih (forall_lies_children hlies)))
  | cond _ htest _ _ ihYes ihNo | split _ htest _ _ _ _ ihYes ihNo =>
    obtain ⟨hyes, hno⟩ := forall_mem_cons.mp (forall_lies_children hlies)
    have hchild := ihYes (forall_mem_singleton.mpr hyes) _ mem_cons_self
    exact hsingle (orderly_of_exprs rfl (forall_mem_singleton.mpr htest)
      (forall_mem_cons.mpr ⟨hchild, ihNo hno⟩))
  | loopStmt _ _ _ ih | scope _ ih | branch _ ih | each _ _ _ _ _ ih | loop _ _ _ ih | opening _ ih
  | handler _ ih
  | final _ ih => exact ih hlies
  | switch _ hselector hlabels _ ih =>
    exact hsingle (orderly_of_exprs rfl (forall_mem_cons.mpr ⟨hselector, hlabels⟩)
      (ih (forall_lies_children hlies)))
  | synchronized _ hown _ _ ih | whileLoop hown _ ih | doWhile hown _ ih =>
    exact hsingle (orderly_of_exprs rfl (forall_mem_singleton.mpr hown)
      (ih (forall_lies_children hlies)))
  | ret | brk | cont => exact hsingle (orderly_of_exprs rfl (forall_mem_nil _) (forall_mem_nil _))
  | tryCatch _ hinits _ _ _ _ _ _ _ _ ihInner ihCode =>
    obtain ⟨hinner, hfinal⟩ := forall_mem_append.mp (forall_lies_children hlies)
    refine hsingle (orderly_of_exprs rfl (fun e he => ?_)
      (forall_mem_append.mpr ⟨ihInner hinner, ihCode hfinal⟩))
    obtain ⟨d, hd, he⟩ := mem_flatMap.mp he
    exact hinits d hd e (Option.mem_toList.mp he)
  | cons _ _ ihHead ihTail =>
    obtain ⟨hs, hss⟩ := forall_mem_cons.mp hlies
    exact forall_mem_cons.mpr ⟨ihHead (forall_mem_singleton.mpr hs) _ mem_cons_self, ihTail hss⟩
  | forLoop htest hupdate _ ih =>
    refine hsingle (orderly_of_exprs rfl (fun e he => ?_) (ih (forall_lies_children hlies)))
    exact (mem_append.mp he).elim (fun he => htest e (Option.mem_toList.mp he)) (hupdate e)
  | @forEach ctx L cur label var iterable b loc code L' hiterable _ ih =>
    obtain ⟨path, hpath⟩ := hlies _ mem_cons_self
    have hinit : var.init = none := hfits path _ hpath
    refine hsingle (orderly_of_exprs rfl (fun e he => ?_) (ih (forall_lies_children hlies)))
    rw [Stmt.exprs, hinit] at he
    exact mem_singleton.mp he ▸ hiterable
  | @choice ctx L cur selector cases tags code L₁ L' htags _ _ ih =>
    subst htags
    have hbodies := parts_cases L (L.tagAt 0) selector cases
    exact hbodies ▸ ih (hbodies ▸ hlies)
  | counting _ _ ihFirst ihRest | case _ _ _ ihFirst ihRest | handlers _ _ _ _ ihFirst ihRest
  | guarded _ _ ihFirst ihRest =>
    obtain ⟨hfirst, hrest⟩ := forall_mem_append.mp hlies
    exact forall_mem_append.mpr ⟨ihFirst hfirst, ihRest hrest⟩
  | nil | noBranch | noCases | noHandlers | noFinal => exact forall_mem_nil _

end Orderly

end Lowering

/-! ## Classes -/

open Lowering

/-- What is left of the markers of a procedure in its class. -/
structure Procedure.MarkersGone (m : Markers) (p : Procedure) (cls : GeneratorClass) : Prop where
  /-- nothing is left in ops, but for labels of cases in plain statements -/
  ops : ∀ M ∈ cls.advance.machines, ∀ op ∈ M.ops, ∀ e, op.Holds e →
    e.findMarker? m = none ∨ ∃ s path t, op = .plain s ∧ Lies [s] path t ∧ e ∈ t.caseLabels
  /-- so nothing at all is left if no marker stands in a label -/
  clean : (∀ path s, Lies p.body path s → ∀ e ∈ s.caseLabels, e.findMarker? m = none) →
    ∀ M ∈ cls.advance.machines, ∀ op ∈ M.ops, ∀ e, op.Holds e → e.findMarker? m = none
  /-- and all markers of the procedure were in place, but for those in labels -/
  source : ∀ path s, Lies p.body path s → ∀ e ∈ s.screened m, e.findMarker? m = none

namespace Procedure

theorem caseLabels_unresolved (s : Stmt) :
    s.unresolved.caseLabels = s.caseLabels.map Expr.unresolved := by
  cases s with
  | switch selector cases => exact Stmt.labels_unresolvedCases cases
  | _ => rfl

theorem screened_unresolved (m : Markers) (s : Stmt) :
    s.unresolved.screened m = (s.screened m).map Expr.unresolved := by
  cases hs : s.isSwitch with
  | false =>
    rw [Stmt.screened_of_not_switch hs,
      Stmt.screened_of_not_switch ((Stmt.isSwitch_unresolved s).trans hs), Stmt.ordinary_unresolved]
  | true =>
    cases s with
    | switch => rfl
    | _ => cases hs

/-- Expressions that differ in their symbols only hold the same markers. -/
theorem findMarker?_of_mem_map {m : Markers} {es as : List Expr}
    (h : es.map Expr.unresolved = as.map Expr.unresolved) (hes : ∀ e ∈ es, e.findMarker? m = none) :
    ∀ a ∈ as, a.findMarker? m = none := by
  intro a ha
  have hmem : a.unresolved ∈ es.map Expr.unresolved := h ▸ mem_map_of_mem ha
  obtain ⟨e, he, heq⟩ := mem_map.mp hmem
  rw [← Expr.findMarker?_unresolved, ← heq, Expr.findMarker?_unresolved]
  exact hes e he

theorem markersGone {p : Procedure} {settings : Settings} {cls : GeneratorClass}
    (hp : p.Grammatical) (h : p.lower settings = .ok cls) : p.MarkersGone settings.markers cls := by
  obtain ⟨b⟩ := lower_blueprint h
  have horderly := b.made.orderly hp.resolve fun s hs => ⟨[], .top hs⟩
  have hplaced : ∀ M ∈ cls.advance.machines, ∀ op ∈ M.ops, ∀ e, op.Holds e →
      e.findMarker? settings.markers = none ∨
      ∃ s path t, op = .plain s ∧ Lies [s] path t ∧ e ∈ t.caseLabels ∧
        ∃ path, Lies p.resolve.1.body path t := by
    intro M hM op hop e he
    have htraced := b.traced.ops M hM op hop
    cases he with
    | own he => exact .inl (htraced.exprs e he).unmarked
    | @plain s path t _ ht he =>
      obtain ⟨hneeds, -, ⟨⟨place, hplace⟩, -⟩ | ⟨a, loc, rfl, -⟩⟩ := htraced.plain s rfl
      · obtain ⟨path', hpath'⟩ := hplace.inside ht
        refine (Stmt.exprs_of_plain (hp.resolve path' t hpath') hneeds ht e he).imp_right
          fun hlabel => ?_
        exact ⟨s, path, t, rfl, ht, hlabel, path', hpath'⟩
      · -- an update of a loop has no statements in it
        have hself : t = .expr a loc := by
          rcases ht.head with ⟨-, hmem⟩ | ⟨u, hu, inner, rfl, hinner⟩
          · exact mem_singleton.mp hmem
          · cases mem_singleton.mp hu
            rcases hinner.head with ⟨-, hmem⟩ | ⟨v, hv, -⟩
            · cases hmem
            · cases hv
        subst hself
        have hfits : (Stmt.expr a loc).HeadFits := trivial
        exact .inl ((Stmt.exprs_of_plain hfits hneeds ht e he).resolve_right not_mem_nil)
  refine ⟨fun M hM op hop e he => ?_, fun hlabels M hM op hop e he => ?_, fun path s hs => ?_⟩
  · refine (hplaced M hM op hop e he).imp_right ?_
    rintro ⟨s, path, t, hs, ht, hlabel, -⟩
    exact ⟨s, path, t, hs, ht, hlabel⟩
  · rcases hplaced M hM op hop e he with hnone | ⟨s, path, t, -, -, hlabel, path', hpath'⟩
    · exact hnone
    · obtain ⟨place, u, hu, -, heq⟩ := hpath'.of_resolve
      have hsame := (caseLabels_unresolved u).symm.trans
          ((congrArg Stmt.caseLabels heq.symm).trans (caseLabels_unresolved t))
      exact findMarker?_of_mem_map hsame (hlabels _ u hu) e hlabel
  · obtain ⟨path', s', hs', -, heq⟩ := hs.resolve
    have horder : ∀ e ∈ s'.screened settings.markers, e.findMarker? settings.markers = none := by
      rcases hs'.head with ⟨rfl, hmem⟩ | ⟨t, ht, inner, rfl, hinner⟩
      · exact horderly s' hmem [] s' (.top mem_cons_self)
      · exact horderly t ht (inner ++ [t]) s' ((Lies.top mem_cons_self).within hinner)
    refine findMarker?_of_mem_map ?_ horder
    rw [← screened_unresolved, ← screened_unresolved, heq]

/-- **No marker survives as a call**, unless it stands in the label of a case: no expression of any
op of a class holds one, but for labels of cases in plain statements, and so none at all if no label
of the procedure holds one. A procedure with any other marker out of place is refused. -/
theorem lower_markersGone (settings : Settings) :
    (∀ (p : Procedure) cls, p.Grammatical → p.lower settings = .ok cls →
      p.MarkersGone settings.markers cls) ∧
      ∀ source file u, ProgramUnit.ofSource source file = .ok u → ∀ p ∈ u.procedures, ∀ cls,
        p.lower settings = .ok cls → p.MarkersGone settings.markers cls :=
  ⟨fun _ _ hp h => markersGone hp h, fun _ _ _ hu p hp _ h =>
    markersGone (ProgramUnit.ofSource_grammatical hu p hp) h⟩

/-- A procedure that emits in a loop behind a plain switch and under a guard. -/
def mixed : Procedure where
  name := "mixed"
  params := []
  returnType := none
  body := [
    .switch (.int 1) [.mk [.int 1] false [.expr (.call "trace" [.int 1]) .unknown,
      .brk none .unknown]] .unknown,
    .tryCatch [⟨.free "r", ⟨"Resource", []⟩, some (.call "resource" [.literal (.str "a")])⟩] [
      .whileLoop (.bool true) (.block [
        .expr (.call "stepAll" [.call "range" [.int 0, .int 3]]) .unknown,
        .brk none .unknown] .unknown) .unknown]
      [] (some [.expr (.call "step" [.int 2]) .unknown]) .unknown]
  location := .unknown

theorem lower_markersGone_mixed : mixed.Grammatical ∧ ∃ cls, mixed.lower {} = .ok cls ∧
    ∀ M ∈ cls.advance.machines, ∀ op ∈ M.ops, ∀ e, op.Holds e →
      e.findMarker? ({} : Settings).markers = none := by
  have hgrammatical : mixed.Grammatical := by decide
  have hlawful : mixed.Lawful ({} : Settings).markers := by decide
  have hlabels : ∀ r ∈ Stmt.places mixed.body, ∀ e ∈ r.2.caseLabels,
      e.findMarker? ({} : Settings).markers = none := by decide
  obtain ⟨cls, h⟩ := accepts_lawful hgrammatical hlawful
  exact ⟨hgrammatical, cls, h, ((lower_markersGone {}).1 mixed cls hgrammatical h).clean
    fun path s hs => hlabels (path, s) (lies_iff_mem_places.mp hs)⟩

/-- A procedure with a marker in the label of a case. -/
def labelled : Procedure where
  name := "labelled"
  params := []
  returnType := none
  body := [.switch (.int 1) [.mk [.call "step" [.int 1]] false []] .unknown]
  location := .unknown

/-- It is accepted, and the marker is left as a call of a function. -/
theorem labelled_keeps_marker : labelled.Grammatical ∧ ∃ cls, labelled.lower {} = .ok cls ∧
    ∃ M ∈ cls.advance.machines, ∃ op ∈ M.ops, ∃ e, op.Holds e ∧
      e.findMarker? ({} : Settings).markers = some "step" := by
  refine ⟨by decide, _, rfl, _, mem_cons_self, _, mem_cons_self, .call "step" [.int 1], ?_, rfl⟩
  exact .plain (.top mem_cons_self) (mem_cons_of_mem _ mem_cons_self)

end Procedure

end Resumable
