import Resumable.Proofs.Rules

/-!
# Labels inside statements with the same label

A label is compared with the targets of jumps around it where its statement is lowered. Statements
that are kept as they are, and all that stands in them, are never looked at.

* `Unshadowed` says of statements that those labels in them that lowering comes to differ from the
  labels around them, and `Made.unshadowed` that this holds of everything that code is made of;
* `Procedure.lower_unshadowed` says it of procedures;
* `Procedure.nestedLabels_shadowed` has a procedure that is accepted although a label stands inside
  a statement with the same label.
-/

namespace Resumable

open List

namespace Lowering

/-- If a statement with a label stands in `ss`, and it and all statements around it are lowered,
then the label differs from `own`, from those of the targets of jumps and from those around it. -/
def Unshadowed (ctx : Context) (own : Option String) (ss : List Stmt) : Prop :=
  ∀ path s label, Lies ss path s → s.label? = some label →
    (∀ t ∈ s :: path, t.needsLowering ctx.markers) → (∀ t ∈ path, t.HeadFits) →
    own ≠ some label ∧ (∀ k ∈ ctx.controls, k.label ≠ some label) ∧
      ∀ t ∈ path, t.label? ≠ some label

namespace Unshadowed

variable {ctx : Context} {own : Option String} {ss ts : List Stmt} {s : Stmt}

theorem nil : Unshadowed ctx own [] := by
  intro path s label hs
  rcases hs.head with ⟨-, hs⟩ | ⟨t, ht, -⟩
  · cases hs
  · cases ht

theorem append (hss : Unshadowed ctx own ss) (hts : Unshadowed ctx own ts) :
    Unshadowed ctx own (ss ++ ts) := by
  intro path s label hs
  have hcases : Lies ss path s ∨ Lies ts path s := by
    clear hss hts
    induction hs with
    | top hs => exact (mem_append.mp hs).imp .top .top
    | inner _ hs ih => exact ih.imp (.inner · hs) (.inner · hs)
  exact hcases.elim (hss path s label) (hts path s label)

/-- A statement that is kept is not looked at. -/
theorem plain (h : s.needsLowering ctx.markers = false) : Unshadowed ctx own [s] := by
  intro path t label ht _ hneeds
  have hs : s ∈ t :: path := by
    rcases ht.head with ⟨-, ht⟩ | ⟨u, hu, inner, rfl, -⟩
    · rw [mem_singleton.mp ht]
      exact mem_cons_self
    · rw [← mem_singleton.mp hu]
      simp
  rw [hneeds s hs] at h
  cases h

/-- Around what stands in a statement there is that statement: its label counts where it is looked
at. -/
theorem around {inner : Option String}
    (hself : ∀ label, s.label? = some label → own ≠ some label ∧ ∀ k ∈ ctx.controls,
      k.label ≠ some label)
    (hinner : ∀ label, inner ≠ some label → own ≠ some label ∧ s.label? ≠ some label)
    (h : s.HeadFits → Unshadowed ctx inner s.children) : Unshadowed ctx own [s] := by
  intro path t label ht hlabel hneeds hfits
  rcases ht.head with ⟨rfl, hmem⟩ | ⟨u, hu, between, rfl, hlies⟩
  · obtain rfl := mem_singleton.mp hmem
    exact ⟨(hself label hlabel).1, (hself label hlabel).2, nofun⟩
  · obtain rfl := mem_singleton.mp hu
    rw [← cons_append] at hneeds
    obtain ⟨hne, hcontrols, hbetween⟩ := h (hfits u (by simp)) between t label hlies hlabel
      (fun v hv => hneeds v (mem_append_left _ hv)) fun v hv => hfits v (mem_append_left _ hv)
    refine ⟨(hinner label hne).1, hcontrols, fun v hv => ?_⟩
    rcases mem_append.mp hv with hv | hv
    · exact hbetween v hv
    · exact mem_singleton.mp hv ▸ (hinner label hne).2

/-- A statement without a label. -/
theorem wrap (hlabel : s.label? = none) (h : s.HeadFits → Unshadowed ctx own s.children) :
    Unshadowed ctx own [s] := by
  refine around (fun label hs => ?_) (fun label hown => ⟨hown, ?_⟩) h
  · cases hlabel.symm.trans hs
  · exact hlabel ▸ (Option.some_ne_none label).symm

/-- A statement that a label new to the targets of jumps stands on. -/
theorem labeled {label : String} {loc : Location} (hnew : ∀ k ∈ ctx.controls, k.label ≠ some label)
    (h : Unshadowed ctx (some label) [s]) : Unshadowed ctx none [.labeled label s loc] :=
  around (fun own hs => ⟨(Option.some_ne_none own).symm, hs ▸ hnew⟩)
    (fun own hne => ⟨(Option.some_ne_none own).symm, hne⟩) fun _ => h

/-- Where a target of jumps is added, its label is one of those around. -/
theorem leave {k : Control} (h : Unshadowed (ctx.enter k) none ss) : Unshadowed ctx k.label ss := by
  intro path s label hs hlabel hneeds hfits
  obtain ⟨-, hcontrols, hinner⟩ := h path s label hs hlabel hneeds hfits
  obtain ⟨hk, hcontrols⟩ := forall_mem_cons.mp hcontrols
  exact ⟨hk, hcontrols, hinner⟩

/-- Declarations and expressions hold no label. -/
theorem simple (h : ∀ s ∈ ss, s.isSimple) : Unshadowed ctx own ss := by
  induction ss with
  | nil => exact nil
  | cons s ss ih =>
    obtain ⟨hs, hss⟩ := forall_mem_cons.mp h
    have hfirst : Unshadowed ctx own [s] := by
      cases s with
      | declare | expr => exact wrap rfl fun _ => nil
      | _ => cases hs
    exact hfirst.append (ih hss)

end Unshadowed

/-- The labels in a phrase that lowering comes to differ from the label that the phrase carries and
from all others around them. The start of a counting loop does not stand under its label yet. -/
def Phrase.Unshadowed (ctx : Context) : Phrase → Prop
  | scope p => p.Unshadowed ctx
  | head label s => Lowering.Unshadowed ctx label [s]
  | counting label init _ _ _ body =>
    Lowering.Unshadowed ctx none init ∧ Lowering.Unshadowed ctx label [body]
  | each label _ _ _ body => Lowering.Unshadowed ctx label [body]
  | loop shape _ body => Lowering.Unshadowed ctx shape.label [body]
  | p => Lowering.Unshadowed ctx none p.parts

open Unshadowed in
/-- Whatever code is made of, each label that lowering comes to differs from those around it. -/
theorem Made.unshadowed {ctx : Context} {L L' : Ledger} {cur : List Op} {p : Phrase} {code : Code}
    (h : Made ctx L cur p code L') : p.Unshadowed ctx := by
  induction h with
  | plain hplain => exact .plain hplain
  | declare | emit | emitAll | ret | brk | cont => exact wrap rfl fun _ => .nil
  | block _ _ ih | switch _ _ _ _ ih | synchronized _ _ _ _ ih | whileLoop _ _ ih
  | doWhile _ _ ih =>
    exact wrap rfl fun _ => ih
  | cond _ _ _ _ ihyes ihno
  | split _ _ _ _ _ _ ihyes ihno => exact wrap rfl fun _ => ihyes.append ihno
  | loopStmt _ _ _ ih | scope _ ih | branch _ ih => exact ih
  | labeledLoop _ _ hnew _ ih => exact .labeled hnew ih
  | labeled _ _ hnew _ _ ih => exact .labeled hnew ih.leave
  | tryCatch _ _ _ _ _ _ _ _ _ _ ihinner ihfinal => exact wrap rfl fun _ => ihinner.append ihfinal
  | nil | noBranch => exact .nil
  | cons _ _ ihhead ihtail => exact ihhead.append ihtail
  -- what stands before the first test holds no label, so it does not matter that it is not under
  -- this one
  | forLoop _ _ _ ih => exact wrap rfl fun hfits => (simple hfits).append ih.2
  | forEach _ _ ih => exact wrap rfl fun _ => ih
  | counting _ _ ihinit ihloop => exact ⟨ihinit, ihloop⟩
  | each _ _ _ _ _ ih => exact ih
  | loop _ _ _ ih => exact ih.leave
  | @choice ctx L _ selector cases _ _ _ _ htags _ _ ih =>
    have hleave : Lowering.Unshadowed ctx none _ := ih.leave
    rwa [htags, parts_cases L _ selector cases] at hleave
  | noCases => exact .nil
  | case _ _ _ ihbody ihrest => exact ihbody.append ihrest
  | opening _ ih => exact ih
  | handler _ ih => exact ih
  | noHandlers => exact .nil
  | handlers _ _ _ _ ihbody ihrest => exact ihbody.append ihrest
  | guarded _ _ ihbody ihhandlers => exact ihbody.append ihhandlers
  | noFinal => exact .nil
  | final _ ih => exact ih

end Lowering

open Lowering

/-- What does not depend on symbols holds of all of the same statements. -/
theorem forall_of_map_unresolved {P : Stmt → Prop} (hP : ∀ t : Stmt, P t.unresolved ↔ P t)
    {ss ts : List Stmt} (h : ss.map Stmt.unresolved = ts.map Stmt.unresolved)
    (hss : ∀ t ∈ ss, P t) : ∀ t ∈ ts, P t := by
  intro t ht
  have hmem : t.unresolved ∈ ss.map Stmt.unresolved := h ▸ mem_map_of_mem ht
  obtain ⟨s, hs, heq⟩ := mem_map.mp hmem
  exact (hP t).mp (heq ▸ (hP s).mpr (hss s hs))

namespace Procedure

/-- **In an accepted procedure no label stands inside a statement with the same label**, if its
statement and all statements around it are lowered. The heads of loops are as the grammar has them,
so that no label stands in one. -/
theorem lower_unshadowed {p : Procedure} {settings : Settings} {cls : GeneratorClass}
    (h : p.lower settings = .ok cls) {path : List Stmt} {s : Stmt} {label : String}
    (hs : Lies p.body path s) (hlabel : s.label? = some label)
    (hneeds : ∀ t ∈ s :: path, t.needsLowering settings.markers) (hfits : ∀ t ∈ path, t.HeadFits) :
    ∀ t ∈ path, t.label? ≠ some label := by
  obtain ⟨b⟩ := lower_blueprint h
  obtain ⟨path', s', hs', hpath, hsame⟩ := hs.resolve
  have hlabel' : s'.label? = some label := by
    rw [← Stmt.label?_unresolved, ← hsame, Stmt.label?_unresolved, hlabel]
  have hneeds' := forall_of_map_unresolved (fun t => by rw [Stmt.needsLowering_unresolved])
    (show (s :: path).map Stmt.unresolved =
      (s' :: path').map Stmt.unresolved by simp [hpath, hsame]) hneeds
  have hfits' := forall_of_map_unresolved Stmt.headFits_unresolved hpath hfits
  obtain ⟨-, -, hfree⟩ := b.made.unshadowed path' s' label hs' hlabel' hneeds' hfits'
  exact forall_of_map_unresolved (fun t => by rw [Stmt.label?_unresolved]) hpath.symm hfree

/-- A procedure with a label inside a statement with another label, around a call. -/
def nestedLabels (outer inner callee : String) : Procedure where
  name := "nestedLabels"
  params := []
  returnType := none
  body := [.labeled outer
    (.block [.labeled inner (.expr (.call callee [.int 1]) .unknown) .unknown] .unknown) .unknown]
  location := .unknown

theorem lower_unshadowed_nestedLabels : ∃ cls, (nestedLabels "L" "M" "step").lower {} = .ok cls ∧
    ∃ path s, Lies (nestedLabels "L" "M" "step").body path s ∧ s.label? = some "M" ∧
      path.length = 2 ∧
      ∀ t ∈ path, t.label? ≠ some "M" := by
  have haccepted : ∃ cls, (nestedLabels "L" "M" "step").lower {} = .ok cls :=
    accepts_lawful (by decide) (by decide)
  obtain ⟨cls, h⟩ := haccepted
  have hlies : Lies (nestedLabels "L" "M" "step").body _ _ :=
    .inner (.inner (.top mem_cons_self) mem_cons_self) mem_cons_self
  exact ⟨cls, h, _, _, hlies, rfl, rfl, lower_unshadowed h hlies rfl (by decide) (by decide)⟩

/-- Statements that stay as they are may repeat the label of a statement around them. -/
theorem nestedLabels_shadowed : (nestedLabels "L" "L" "trace").Grammatical ∧
    (∃ cls, (nestedLabels "L" "L" "trace").lower {} = .ok cls) ∧
    ∃ path s, Lies (nestedLabels "L" "L" "trace").body path s ∧ s.label? = some "L" ∧
      ∃ t ∈ path, t.label? = some "L" := by
  have haccepted : ((nestedLabels "L" "L" "trace").lower {}).toOption.isSome := by decide +kernel
  refine ⟨by decide, ?_, _, _, .inner (.inner (.top mem_cons_self) mem_cons_self) mem_cons_self,
    rfl, _, mem_cons_of_mem _ mem_cons_self, rfl⟩
  cases h : (nestedLabels "L" "L" "trace").lower {} with
  | ok cls => exact ⟨cls, rfl⟩
  | error e =>
    rw [h] at haccepted
    cases haccepted

end Procedure

end Resumable
