import Resumable.Proofs.Placed.Guards

/-!
# Lowered code is laid out

Code that is made of a statement keeps to the layout of machines. Each construct has a module of its
own.

* `Made.placed`: the code of every phrase is placed.
-/

namespace Resumable

open List

namespace Lowering

open Ledger Code

section Rules

variable {finals : List MachineId} {cur ops : List Op} {cases : List SwitchCase} {tags : List Tag}
  {no : Option Stmt} {label : Option String} {shape : Part.LoopShape} {Γ : Plan} {x : SymbolId}
  {tag : Tag} {ctx : Context} {L L' : Ledger} {p : Phrase} {code a : Code}

theorem Context.breakTag_mem (h : ctx.breakTag? label = some tag) : tag ∈ ctx.tags := by
  obtain ⟨c, hc, rfl⟩ := Option.map_eq_some_iff.mp h
  have hmem : c ∈ ctx.controls := by
    cases label with
    | none | some => exact mem_of_find?_eq_some hc
  exact mem_flatMap.mpr ⟨c, hmem, mem_cons_self⟩

theorem Context.continueTag_mem (h : ctx.continueTag? label = some tag) : tag ∈ ctx.tags := by
  obtain ⟨c, hc, htag⟩ := Option.bind_eq_some_iff.mp h
  have hmem : c ∈ ctx.controls := by
    cases label with
    | none | some => exact mem_of_find?_eq_some hc
  exact mem_flatMap.mpr ⟨c, hmem, mem_cons_of_mem _ (Option.mem_toList.mpr htag)⟩

/-- What a loop starts each round with holds no machine. -/
def Phrase.Simple : Phrase → Prop
  | loop shape _ _ => machinesInOps shape.start = []
  | scope p => p.Simple
  | _ => True

theorem Places.nil (hinits : p.inits = []) (htries : p.tries ctx.markers = [])
    (hgiven : ∀ Γ m finals, p.Given Γ m finals) : Places ctx L p (.now []) L :=
  .now hinits htries rfl rfl (Nat.le_refl _) hgiven fun Γ _ hfits _ _ _ =>
    ⟨.nil, hfits.scopes, .refl Γ ctx rfl⟩

/-- The code of a phrase starts with its ops for resources. -/
theorem Made.inits (h : Made ctx L cur p code L') : p.inits <+: code.ops := by
  induction h with
  | scope _ ih => exact ih.trans (ops_prefix_append _ _)
  | opening => exact ops_prefix_append (.now _) _
  | guarded _ _ ih => exact ih.trans ((ops_prefix_append _ _).trans (ops_prefix_append _ _))
  | _ => exact nil_prefix

/-- **Lowered code is laid out**: the code of every phrase can be placed. -/
theorem Made.placed (h : Made ctx L cur p code L') (hsimple : p.Simple) :
    Places ctx L p code L' := by
  induction h with
  | plain hplain => exact plain_places hplain
  | declare hx => exact declare_places hx
  | emit he _ henter => exact emit_places he henter
  | emitAll he _ _ hL₁ _ henter => exact emitAll_places he hL₁ henter
  | block hneeds _ ih | switch hneeds _ _ _ ih =>
    refine (ih trivial).relabel rfl (Stmt.orNone_pos hneeds _).symm (fun x hx => ?_)
      (fun _ _ _ _ => trivial)
      fun _ _ _ _ => trivial
    rw [Phrase.stores, Stmt.stores, Stmt.orWrites, if_pos hneeds]
    exact hx
  | cond hneeds _ hyes hno ihYes ihNo =>
    exact cond_places hneeds (ihYes trivial) (ihNo trivial) hyes.grows hno.grows hyes.size_eq
  | split hneeds _ hyes hno _ henter ihYes ihNo =>
    exact split_places hneeds (ihYes trivial)
      (ihNo trivial) hyes.grows hno.grows hyes.size_eq hno.size_eq henter
  | loopStmt hneeds hloop _ ih =>
    refine (ih trivial).relabel rfl (Stmt.tries_of_loop hneeds hloop).symm (fun x hx => ?_)
      (fun _ _ _ _ => trivial) fun _ _ _ _ => trivial
    rw [Phrase.stores, Stmt.stores_of_loop hneeds hloop]
    exact hx
  | labeledLoop hneeds _ _ _ ih =>
    refine (ih trivial).relabel rfl (Stmt.tries_labeled hneeds).symm (fun x hx => ?_)
      (fun _ _ _ _ => trivial) fun _ _ _ _ => trivial
    rw [Phrase.stores, Stmt.stores_labeled hneeds]
    exact hx
  | labeled hneeds hloop _ hbody henter ih =>
    exact labeled_places hneeds hloop (ih trivial) hbody.grows hbody.size_eq henter
  | synchronized hneeds _ _ _ ih => exact synchronized_places hneeds (ih trivial)
  | ret hroute => exact transfer_places hroute (.inr rfl) rfl
  | brk htag hroute => exact transfer_places hroute (.inl (Context.breakTag_mem htag)) rfl
  | cont htag hroute => exact transfer_places hroute (.inl (Context.continueTag_mem htag)) rfl
  | tryCatch hneeds _ hxs hL₁ hguard hinner hfinal hcode hsettle hend ihInner ihCode =>
    subst hL₁
    exact tryCatch_places hneeds hxs
      ⟨hguard, hinner.grows, hfinal, hcode.grows, hcode.size_eq, hsettle, hend⟩
      (ihInner trivial) hinner.inits
      (ihCode trivial) hinner hcode
  | nil | noBranch | noFinal => exact .nil rfl rfl fun _ _ _ => trivial
  | cons hhead htail ihHead ihTail =>
    refine (ihHead trivial).seq (ihTail trivial) hhead.grows htail.grows hhead.size_eq
      ⟨rfl, rfl, rfl⟩ rfl
      (fun x hx => ?_) (fun _ _ _ _ => ⟨trivial, trivial⟩) fun _ _ _ => trivial
    exact mem_append.mpr hx
  | scope hbody ih => exact scope_places (ih hsimple) hbody.inits fun _ _ _ => trivial
  | branch _ ih | forLoop _ _ _ ih | forEach _ _ ih | final _ ih =>
    exact (ih trivial).relabel rfl rfl (fun _ hx => hx)
      (fun _ _ _ _ => trivial) fun _ _ _ _ => trivial
  | whileLoop _ _ ih | doWhile _ _ ih =>
    refine (ih rfl).relabel rfl rfl (fun x hx => ?_) (fun _ _ _ _ => .nil) fun _ _ _ _ => trivial
    simpa [Phrase.stores, writesOf?, writesOf, Stmt.loopStores] using hx
  | counting hinit hloop ihInit ihLoop =>
    refine (ihInit trivial).seq (ihLoop rfl) hinit.grows hloop.grows hinit.size_eq
      ⟨rfl, rfl, rfl⟩ rfl
      (fun x hx => ?_) (fun _ _ _ _ => ⟨trivial, .nil⟩) fun _ _ _ => trivial
    simpa [Phrase.stores] using hx
  | each hx _ hL₁ _ hloop ih => exact each_places hx hL₁ (ih rfl) hloop.grows
  | loop henter hbody htail ih =>
    exact loop_places hsimple henter (ih trivial) hbody.grows hbody.size_eq htail
  | choice htags hcases henter ih =>
    exact choice_places htags (ih trivial) hcases.grows hcases.size_eq henter
  | noCases | noHandlers => exact .nil rfl rfl fun _ _ _ c hc => absurd hc not_mem_nil
  | case henter hbody hrest ihBody ihRest =>
    exact case_places henter (ihBody trivial) (ihRest trivial) hbody.grows hrest.grows hbody.size_eq
  | opening _ ih => exact opening_places (ih trivial)
  | handler _ ih => exact handler_places (ih trivial)
  | handlers hx henter hbody hrest ihBody ihRest =>
    exact handlers_places hx henter (ihBody trivial)
      (ihRest trivial) hbody.grows hrest.grows hbody.size_eq
  | guarded hbody hhandlers ihBody ihHandlers =>
    exact guarded_places (ihBody trivial) hbody.inits
      (ihHandlers trivial) hbody.grows hhandlers.grows hbody.size_eq

end Rules

end Lowering

end Resumable
