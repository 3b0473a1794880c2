import Resumable.Proofs.Placed.Loops

/-!
# The places of labels, locks and switches

A label and a switch have one state behind them, which their own tag leads to; a lock has none.
-/

namespace Resumable

open List

namespace Lowering

open Ledger Code

section Rules

variable {more : Code} {finals : List MachineId} {cur ops : List Op} {ss : List Site}
  {body : List Stmt} {cases : List SwitchCase} {exits tags : List Tag} {zs : List Zone}
  {loc : Location} {label : Option String} {Γ : Plan} {s : Stmt} {x : SymbolId} {tag : Tag}
  {ctx : Context} {L L' L₁ L₂ : Ledger} {p : Phrase} {code a : Code}

/-- What is known where code is made under a control with a tag that is opened behind the code. -/
theorem Placed.under {c : Control} {n : Nat}
    (hplaced : Placed (ctx.enter c) (L.reserve n) p code L₁ finals zs ss)
    (hbreak : c.breakTag = L.tagAt 0) (hcontinue : c.continueTag = none) (hn : 0 < n)
    (hgrows : (L.reserve n).Grows L₁) (hsize : L₁.size = L.size + code.states.length)
    (henter : L₁.enter (L.tagAt 0) = .ok L') (h : Γ.Fits ctx L finals)
    (hcovers : Γ.Covers L L' (zs ++ [.code finals]) ss) :
    (∀ i < n, Γ.tags.owner (L.tagAt i) = L.machine) ∧ Γ.Resumes L.machine finals (L.tagAt 0) ∧
      Γ.Fits (ctx.enter c) (L.reserve n) finals ∧ Γ.Covers (L.reserve n) L₁ zs ss ∧
      (Γ.Leaves (ctx.enter c) (L.reserve n) L₁ → Γ.Leaves ctx L L') := by
  have hopens := opens_of_enter henter
  have hmachine : L₁.machine = L.machine := hgrows.machine
  have howner : ∀ i < n, Γ.tags.owner (L.tagAt i) = L.machine := fun i hi =>
    (((hgrows.tags.trans hopens.grows.tags).trans hcovers.tags).owner_eq (L.tagAt_known hi)).trans
      (L.owner_reserve hi)
  have hresumes : Γ.Resumes L.machine finals (L.tagAt 0) := by
    have hstands := hcovers.zones.right.head
    rw [hplaced.length, ← hsize, ← hmachine] at hstands
    exact hmachine ▸ Plan.resumes_of_enter_owner henter hcovers.tags
      ((howner 0 hn).trans hmachine.symm) hstands
  have hcontrol : ∀ t ∈ c.breakTag :: c.continueTag.toList, t = L.tagAt 0 := by
    rw [hbreak, hcontinue]
    exact fun t ht => mem_singleton.mp ht
  have hbefore := hcovers.before hopens.grows
  refine ⟨howner, hresumes, ?_, ⟨hbefore.tags, hbefore.symbols, hbefore.sites, hbefore.zones,
    hbefore.exits⟩,
    fun hleaves => ?_⟩
  · refine (h.grow (L.reserve_grows n) h.scopes).enter fun t ht => ?_
    rw [hcontrol t ht]
    exact ⟨L.tagAt_known hn, howner 0 hn, hresumes.leads⟩
  · have hinside : Γ.Leaves ctx L L₁ := hleaves.of_enter fun t ht => by
      rw [hcontrol t ht]
      exact howner 0 hn
    exact hinside.before_open hopens

theorem labeled_places {label : String}
    (hneeds : (Stmt.labeled label s loc).needsLowering ctx.markers) (hloop : s.isLoop = false)
    (hbody : Places (ctx.enter ⟨.labeled, some label, L.tagAt 0, none, L.scopes.length⟩)
      (L.reserve 1)
      (.scope (.stmt s)) code L₁) (hgrows : (L.reserve 1).Grows L₁) (hsize :
        L₁.size = L.size + code.states.length) (henter : L₁.enter (L.tagAt 0) = .ok L') :
    Places ctx L (.stmt (.labeled label s loc))
      (code.sealed cur (.jump (L.tagAt 0)) ++ .opened) L' := by
  intro finals
  obtain ⟨zs, ss, hplaced⟩ := hbody finals
  have hopens := opens_of_enter henter
  have htries : (Phrase.stmt (.labeled label s loc)).tries ctx.markers = s.tries ctx.markers := by
    rw [Phrase.tries, Stmt.tries_labeled hneeds, Stmt.loopTries_of_not_loop hloop]
  refine ⟨zs ++ [Zone.code finals], ss, ?_, ?_, fun Γ hfits hcovers _ hadmits => ?_⟩
  · simp [hplaced.length, Code.opened]
  · have hcounted : Counted L L' _ _ _ := hplaced.counted.of_reserve.before_open hopens
    rw [htries]
    exact hcounted.of_perm ((machines_append_opened _).trans (machines_sealed rfl cur code))
  · obtain ⟨-, hresumes, hfits', hcovers', hleaves⟩ :=
      hplaced.under rfl rfl Nat.one_pos hgrows hsize henter hfits hcovers
    have hstores : ∀ x ∈ s.stores ctx.markers, Γ.Free x := by
      intro x hx
      refine hadmits.stores x ?_
      rw [Phrase.stores, Stmt.stores_labeled hneeds, Stmt.loopStores_of_not_loop hloop]
      exact hx
    have hnot := hadmits.tries
    rw [htries] at hnot
    have hholds := hplaced.holds Γ hfits' hcovers' trivial ⟨hstores, hnot⟩
    exact ⟨Plan.LaidCode.append (Plan.LaidCode.sealed hholds.code
      (.jump hresumes.leads .nil)) .opened,
      hholds.sites, Plan.FreeScopes.opens hholds.scopes hopens, hleaves hholds.exits, trivial⟩

theorem synchronized_places {lock : Expr}
    (hneeds : (Stmt.synchronized lock body loc).needsLowering ctx.markers)
    (hbody : Places ctx L (.scope (.stmts body)) (.now ops) L') :
    Places ctx L (.stmt (.synchronized lock body loc)) (.now [.synchronized lock ops]) L' := by
  intro finals
  obtain ⟨zs, ss, hplaced⟩ := hbody finals
  obtain rfl := length_eq_zero_iff.mp hplaced.length
  have htries : (Phrase.stmt (.synchronized lock body loc)).tries ctx.markers =
      Stmt.triesAll ctx.markers body := by
    rw [Phrase.tries, Stmt.tries, Stmt.orNone_pos hneeds]
  refine ⟨[], ss, rfl, ?_, fun Γ hfits hcovers _ hadmits => ?_⟩
  · rw [htries]
    refine hplaced.counted.of_perm (List.Perm.of_eq ?_)
    simp [machines_now, machinesInOps, machinesInOp]
  · have hstores := hadmits.stores
    rw [Phrase.stores, Stmt.stores, Stmt.orWrites_pos hneeds] at hstores
    have hnot := hadmits.tries
    rw [htries] at hnot
    have hholds := hplaced.holds Γ hfits hcovers trivial
        ⟨fun x hx => hstores x (mem_append_right _ hx), hnot⟩
    exact ⟨.now (.synchronized (fun y hy => hstores y (mem_append_left _ hy)) hholds.code.ops .nil),
      hholds.sites, hholds.scopes, hholds.exits, trivial⟩

/-! ## Switches -/

theorem case_places {endTag : Tag} {labels : List Expr} {isDefault : Bool}
    {rest : List (SwitchCase × Tag)} (henter : L.enter tag = .ok L₁)
    (hbody : Places ctx L₁ (.stmts body) code L₂)
    (hrest : Places ctx L₂ (.cases endTag rest) more L') (hgrows : L₁.Grows L₂)
    (hgrows' : L₂.Grows L') (hsize : L₂.size = L₁.size + code.states.length) :
    Places ctx L (.cases endTag ((.mk labels isDefault body, tag) :: rest))
      (.opened ++ code.sealed cur (.jump ((rest.head?.map Prod.snd).getD endTag)) ++ more) L' := by
  have htries : Stmt.triesAll ctx.markers body ++ Stmt.triesCases ctx.markers (rest.map Prod.fst) =
      (Phrase.cases endTag ((.mk labels isDefault body, tag) :: rest)).tries ctx.markers := rfl
  refine .openWith (opens_of_enter henter) hbody hrest hgrows hgrows' hsize rfl
    ⟨rfl, rfl, rfl⟩ htries
    (fun x hx => ?_) (fun Γ m finals hready => ⟨trivial, hready.1,
      fun c hc => hready.2 c (mem_cons_of_mem _ hc)⟩)
    fun Γ finals hT hstands hready _ hgiven => ⟨.jump ?_ .nil, fun c hc => ?_⟩
  · simp only [Phrase.stores, map_cons, Stmt.storesCases, mem_append]
    exact hx.imp_left .inr
  · cases rest with
    | nil => exact hready.1
    | cons c => exact hgiven c mem_cons_self
  · rcases mem_cons.mp hc with rfl | hc
    · exact (Plan.resumes_of_enter_owner henter hT (hready.2 _ mem_cons_self) hstands).leads
    · exact hgiven c hc

theorem mem_storesCases {m : Markers} {c : SwitchCase} (hc : c ∈ cases) :
    ∀ x ∈ writesOf c.labels, x ∈ Stmt.storesCases m cases := by
  induction cases with
  | nil => cases hc
  | cons c' cases ih =>
    obtain ⟨labels, isDefault, body⟩ := c'
    intro x hx
    rcases mem_cons.mp hc with rfl | hc
    · exact mem_append_left _ (mem_append_left _ hx)
    · exact mem_append_right _ (ih hc x hx)

theorem choice_places {selector : Expr} (htags : tags = L.caseTags cases.length)
    (hcases : Places (ctx.enter ⟨.switch, none, L.tagAt 0, none, L.scopes.length⟩)
      (L.reserve (cases.length + 1)) (.cases (L.tagAt 0) (cases.zip tags)) code L₁)
    (hgrows : (L.reserve (cases.length + 1)).Grows L₁)
    (hsize : L₁.size = L.size + code.states.length) (henter : L₁.enter (L.tagAt 0) = .ok L') :
    Places ctx L (.choice selector cases)
      (.now (chooseOps selector (armsOf (cases.zip tags)) (L.tagAt 0)) ++ code ++ .opened) L' := by
  intro finals
  obtain ⟨zs, ss, hplaced⟩ := hcases finals
  have hopens := opens_of_enter henter
  have hlength : cases.length = tags.length := by simp [htags, Ledger.caseTags]
  have hfst : (cases.zip tags).map Prod.fst = cases := map_fst_zip (Nat.le_of_eq hlength)
  refine ⟨zs ++ [Zone.code finals], ss, ?_, ?_, fun Γ hfits hcovers _ hadmits => ?_⟩
  · simp [hplaced.length, Code.opened]
  · have hcounted : Counted L L' ((Phrase.choice selector cases).tries ctx.markers)
        code.machines ss := by
      have h : Counted L L' _ _ _ := hplaced.counted.of_reserve.before_open hopens
      rwa [Phrase.tries, hfst] at h
    refine hcounted.of_perm
      ((machines_append_opened _).trans ((machines_append _ _).trans (.of_eq ?_)))
    have hchoose : machinesInOps (chooseOps selector (armsOf (cases.zip tags)) (L.tagAt 0)) =
        [] := by
      unfold chooseOps
      split
      · rfl
      · rfl
    rw [machines_now, hchoose, nil_append]
  · obtain ⟨howner, hresumes, hfits', hcovers', hleaves⟩ :=
      hplaced.under rfl rfl (Nat.succ_pos _) hgrows hsize henter hfits hcovers
    have hcaseOwner : ∀ c ∈ cases.zip tags, Γ.tags.owner c.2 = L.machine := by
      intro c hc
      have htag : c.2 ∈ tags := (of_mem_zip hc).2
      rw [htags, Ledger.caseTags, mem_map] at htag
      obtain ⟨i, hi, htag⟩ := htag
      rw [← htag]
      exact howner (i + 1) (Nat.succ_lt_succ (mem_range.mp hi))
    have hadmits' : Γ.Admits (ctx.enter ⟨.switch, none, L.tagAt 0, none, L.scopes.length⟩)
        (.cases (L.tagAt 0) (cases.zip tags)) := by
      refine ⟨fun x hx => hadmits.stores x (mem_append_right _ ?_), ?_⟩
      · rwa [Phrase.stores, hfst] at hx
      · rw [Phrase.tries, hfst]
        exact hadmits.tries
    have hholds := hplaced.holds Γ hfits' hcovers' ⟨hresumes.leads, hcaseOwner⟩ hadmits'
    have harms : ∀ arm ∈ armsOf (cases.zip tags),
        (∀ y ∈ writesOf arm.labels, Γ.Free y) ∧ Γ.Leads L.machine finals arm.target := by
      intro arm harm
      obtain ⟨c, hc, rfl⟩ := mem_map.mp harm
      refine ⟨fun y hy => hadmits.stores y (mem_append_right _ ?_), hholds.given c hc⟩
      exact mem_storesCases (of_mem_zip hc).1 y hy
    have hchoose : Γ.Laid L.machine finals
        (chooseOps selector (armsOf (cases.zip tags)) (L.tagAt 0)) := by
      refine .switch (fun y hy => hadmits.stores y (mem_append_left _ hy)) harms ?_
      split
      · exact .nil
      · exact .jump hresumes.leads .nil
    exact ⟨((Plan.LaidCode.now hchoose).append hholds.code).append .opened, hholds.sites,
      Plan.FreeScopes.opens hholds.scopes hopens, hleaves hholds.exits, trivial⟩

end Rules

end Lowering

end Resumable
