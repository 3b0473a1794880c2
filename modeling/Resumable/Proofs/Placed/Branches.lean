import Resumable.Proofs.Placed.Combine

/-!
# The places of simple statements and branches

Statements that are kept, declarations, markers and jumps have their code in place, and so have
scopes and branches.
-/

namespace Resumable

open List

namespace Lowering

open Ledger Code

section Rules

variable {N Y : Code} {arg e test : Expr} {hs : List Handler} {finals : List MachineId}
  {cur ops : List Op} {ss ss' : List Site} {cases : List SwitchCase} {xs : List SymbolId}
  {exits tags : List Tag} {zs : List Zone} {loc : Location} {no : Option Stmt} {Γ : Plan}
  {s yes : Stmt} {field x : SymbolId} {tag : Tag} {type : TypeRef} {ctx : Context}
  {L L' L₁ L₂ : Ledger} {p : Phrase} {code a : Code}

/-! ## Simple statements -/

theorem plain_places (hplain : s.needsLowering ctx.markers = false) :
    Places ctx L (.stmt s) (.now [.plain s]) L := by
  refine .now rfl (Stmt.tries_of_plain hplain) rfl rfl (Nat.le_refl _) (fun _ _ _ => trivial)
    fun Γ finals hfits _ _ hadmits => ?_
  refine ⟨.plain (fun x hx => hadmits.stores x ?_) .nil, hfits.scopes, .refl Γ ctx rfl⟩
  rw [Phrase.stores, Stmt.stores_of_plain hplain]
  exact hx

theorem Plan.FreeScopes.dropIfCleared (h : Γ.FreeScopes L) (hx : Γ.Free x) (ctx : Context)
    (type : TypeRef) : Γ.FreeScopes (L.dropIfCleared ctx x type) := by
  unfold Ledger.dropIfCleared
  split
  · unfold Ledger.dropAtScopeEnd
    split
    · next scope scopes hscopes =>
      intro s hs y hy
      rcases mem_cons.mp hs with rfl | hs
      · rcases mem_cons.mp hy with rfl | hy
        · exact hx
        · exact h scope (hscopes ▸ mem_cons_self) y hy
      · exact h s (hscopes ▸ mem_cons_of_mem _ hs) y hy
    · exact h
  · exact h

theorem Plan.FreeScopes.captureLocal (h : Γ.FreeScopes L) (hx : Γ.Free x) (ctx : Context)
    (type : TypeRef) : Γ.FreeScopes (L.captureLocal ctx x type) :=
  Plan.FreeScopes.dropIfCleared (L := L.capture x type .localVar (livenessOf ctx type)) h
    hx ctx type

/-- Listing a field with a scope changes the scopes only. -/
theorem Ledger.dropIfCleared_eq (L : Ledger) (ctx : Context) (x : SymbolId) (type : TypeRef) :
    ∃ scopes, L.dropIfCleared ctx x type = { L with scopes := scopes } := by
  unfold dropIfCleared dropAtScopeEnd
  split
  · split
    · exact ⟨_, rfl⟩
    · exact ⟨_, rfl⟩
  · exact ⟨_, rfl⟩

/-- Capturing a declared variable changes fields and scopes only. -/
theorem Ledger.captureLocal_eq (L : Ledger) (ctx : Context) (x : SymbolId) (type : TypeRef) :
    ∃ captures scopes, L.captureLocal ctx x type =
      { L with captures := captures, scopes := scopes } := by
  obtain ⟨scopes, h⟩ :=
    dropIfCleared_eq (L.capture x type .localVar (livenessOf ctx type)) ctx x type
  exact ⟨_, scopes, h⟩

/-- A field for an iterator and its variable change symbols, fields and scopes only. -/
theorem Ledger.captureEach_eq (L : Ledger) (ctx : Context) (x : SymbolId) (type t : TypeRef) :
    ∃ captures scopes,
    ((L.newField ctx "iter" type .synthetic).dropIfCleared ctx L.nextSymbol type).captureLocal ctx x
      t =
      { L.newField ctx "iter" type .synthetic with captures := captures, scopes := scopes } := by
  obtain ⟨scopes, hdrop⟩ :=
    (L.newField ctx "iter" type .synthetic).dropIfCleared_eq ctx L.nextSymbol type
  rw [hdrop]
  exact captureLocal_eq { L.newField ctx "iter" type .synthetic with scopes := scopes } ctx x t

theorem declare_places {d : LocalDecl} (hx : d.name.symbol = some x) :
    Places ctx L (.stmt (.declare d loc)) (.now (d.init.toList.map (Op.assign x)))
      (L.captureLocal ctx x d.type) := by
  obtain ⟨captures, scopes, heq⟩ := L.captureLocal_eq ctx x d.type
  refine .now rfl rfl ?_ ?_ ?_ (fun _ _ _ => trivial) fun Γ finals hfits _ _ hadmits => ?_
  · cases d.init with
    | none | some => rfl
  · rw [heq]
  · exact Nat.le_of_eq (by rw [heq])
  · have hfree : Γ.Free x :=
      hadmits.stores x (mem_append_left _ (by rw [hx]; exact mem_singleton_self x))
    refine ⟨?_, Plan.FreeScopes.captureLocal hfits.scopes hfree ctx d.type,
      .refl Γ ctx (by rw [heq])⟩
    cases hinit : d.init with
    | none => exact .nil
    | some =>
      refine .assign hfree (fun y hy => hadmits.stores y (mem_append_right _ ?_)) .nil
      rw [hinit]
      exact hy

theorem writes_of_asMarker {m : Markers} {kind : MarkerKind}
    (h : e.asMarker? m = some (kind, arg)) : ∀ x ∈ arg.writes, x ∈ e.writes := by
  obtain ⟨callee, rfl⟩ := call_of_asMarker? h
  exact fun x hx => mem_append_left _ hx

/-- The tags that the machine at hand has reserved are its own. -/
theorem Ledger.owner_reserve (L : Ledger) {n i : Nat} (hi : i < n) :
    (L.reserve n).tags.owner (L.tagAt i) = L.machine := by
  have hslot : (L.reserve n).tags.slots[(L.tagAt i).index]? = some ⟨L.machine, none⟩ := by
    show (L.tags.slots ++ Array.replicate n _)[L.tags.slots.size + i]? = _
    rw [Array.getElem?_append_right (Nat.le_add_right ..), Nat.add_sub_cancel_left,
      Array.getElem?_replicate, if_pos hi]
  rw [TagTable.owner, hslot]
  rfl

theorem emit_places (he : e.asMarker? ctx.markers = some (.emit, arg))
    (henter : (L.reserve 1).enter (L.tagAt 0) = .ok L') :
    Places ctx L (.stmt (.expr e loc))
      (.now [.setState (L.tagAt 0), .yield arg] ++ .opened) L' := by
  have hopens := (opens_of_enter henter).of_reserve
  refine fun finals => ⟨[.code finals], [], rfl, ?_, fun Γ hfits hcovers _ hadmits => ?_⟩
  · exact .nil hopens.nextMachine hopens.grows.symbols.size_le
  · have hresumes : Γ.Resumes L.machine finals (L.tagAt 0) :=
      Plan.resumes_of_enter (L := L.reserve 1) henter hcovers.tags
        (L.owner_reserve Nat.one_pos) hcovers.zones.head
    refine ⟨.append (.now (.emit hresumes (fun y hy => ?_) .nil)) .opened, nofun,
      Plan.FreeScopes.opens hfits.scopes hopens, .refl Γ ctx hopens.exits, trivial⟩
    exact hadmits.stores y (writes_of_asMarker he y hy)

theorem SymbolTable.get?_declare (t : SymbolTable) (name : String) (type : TypeRef)
    (kind : SymbolKind) : (t.declare name type kind).2.get? ⟨t.size⟩ = some ⟨name, type, kind⟩ := by
  show (t.symbols.push _)[t.symbols.size]? = _
  rw [Array.getElem?_push_size]

/-- A new variable of lowering steers machines if its name says so. -/
theorem not_steers_of_declare {t t' : SymbolTable} {name : String}
    (h : (t.declare name type .synthetic).2.Extends t')
    (hname : name ∉ ["selector", "handling", "pending", "pendingJump"]) : ¬ t'.Steers ⟨t.size⟩ := by
  rintro ⟨info, hinfo, _, hmem⟩
  have hget := h t.size _ (SymbolTable.get?_declare t name type .synthetic)
  have heq : some info = some ⟨name, type, .synthetic⟩ := hinfo.symm.trans hget
  cases heq
  exact hname hmem

/-- The handle of an iterator may be stored to. -/
theorem Plan.Fits.free_handle {name : String} (hfits : Γ.Fits ctx L finals)
    (hname : name ∉ ["selector", "handling", "pending", "pendingJump"])
    (h : (L.symbols.declare name type .synthetic).2.Extends Γ.symbols) : Γ.Free L.nextSymbol :=
  ⟨not_steers_of_declare h hname, fun hkept => Nat.lt_irrefl _ (hfits.kept _ hkept)⟩

theorem emitAll_places {x : Ident} (he : e.asMarker? ctx.markers = some (.emitAll, arg))
    (hL₁ : L₁ = L.newField ctx "delegate" type .synthetic)
    (henter : (L₁.reserve 1).enter (L.tagAt 0) = .ok L') :
    Places ctx L (.stmt (.expr e loc))
      (.now [.assign L.nextSymbol arg, .jump (L.tagAt 0)] ++ .opened ++
        .now (.cond (Part.callOn x "hasNext") [.yield (Part.callOn x "next")] [] ::
          if livenessOf ctx type = .clearedAtScopeEnd then [.clear L.nextSymbol] else [])) L' := by
  subst hL₁
  obtain ⟨tags, htags, heq⟩ := enter_ok henter
  refine fun finals => ⟨[.code finals], [], rfl, ?_, fun Γ hfits hcovers _ hadmits => ?_⟩
  · have hmachines : machinesInOps (if livenessOf ctx type = .clearedAtScopeEnd then
        [Op.clear L.nextSymbol] else []) = [] := by
      split
      · rfl
      · rfl
    have hnil : Counted L L' ((Phrase.stmt (.expr e loc)).tries ctx.markers) [] [] := by
      refine .nil (by rw [heq]; rfl) ?_
      rw [heq]
      exact (L.newField_grows ctx "delegate" type .synthetic).symbols.size_le
    refine hnil.of_perm (List.Perm.of_eq ?_)
    simp only [Code.opened, mk_cons_append, mk_nil_append, Code.machines, Code.now,
      nil_append, flatMap_cons, flatMap_nil]
    simp [machinesInOps, machinesInOp, hmachines]
  · have hsymbols : (L.symbols.declare "delegate" type .synthetic).2.Extends Γ.symbols := by
      have h := hcovers.symbols
      rw [heq] at h
      exact h
    have hfree : Γ.Free L.nextSymbol := hfits.free_handle (by decide) hsymbols
    have hresumes : Γ.Resumes L.machine finals (L.tagAt 0) :=
      Plan.resumes_of_enter (L := (L.newField ctx "delegate" type .synthetic).reserve 1) henter
        hcovers.tags (owner_reserve _ Nat.one_pos) hcovers.zones.head
    have hclear : Γ.Laid L.machine finals (if livenessOf ctx type = .clearedAtScopeEnd then
        [Op.clear L.nextSymbol] else []) := by
      split
      · exact .clear hfree .nil
      · exact .nil
    refine ⟨?_, forall_mem_nil _, ?_, .refl Γ ctx (by rw [heq]; rfl), trivial⟩
    · refine ⟨.assign hfree (fun y hy => ?_) (.jump hresumes.leads .nil), ?_,
        fun z hz => by cases hz; rfl⟩
      · exact hadmits.stores y (writes_of_asMarker he y hy)
      · exact .cons (.poll hclear) .nil
    · rw [heq]
      exact hfits.scopes

theorem machinesInOps_clears (xs : List SymbolId) : machinesInOps (xs.map Op.clear) = [] := by
  induction xs with
  | nil => rfl
  | cons x xs ih => exact ih

theorem machinesInOps_route (h : L.route ctx tag = .ok (ops, L')) : machinesInOps ops = [] := by
  have hclears : machinesInOps (L.exitClears ctx tag) = [] := machinesInOps_clears _
  unfold Ledger.route at h
  split at h
  · cases h
    rw [machinesInOps_append, hclears]
    split
    · rfl
    · rfl
  · split at h
    · cases h
    · cases h
      rw [machinesInOps_append, hclears]
      rfl

theorem transfer_places (hroute : L.route ctx tag = .ok (ops, L'))
    (htag : tag ∈ ctx.tags ∨ tag = .finished) (htries : s.tries ctx.markers = []) :
    Places ctx L (.stmt s) (.now ops) L' := by
  obtain ⟨exits, -, heq⟩ := Ledger.route_ok hroute
  refine .now rfl htries ?_ (by rw [heq]) (Nat.le_of_eq (by rw [heq])) (fun _ _ _ => trivial)
    fun Γ finals hfits hcovers _ _ => ?_
  · exact machinesInOps_route hroute
  · obtain ⟨hops, hscopes, hleaves⟩ := Plan.route_laid hfits hroute htag hcovers.tags hcovers.exits
    have hlaid := Plan.Laid.route hops .nil
    rw [List.append_nil] at hlaid
    exact ⟨hlaid, hscopes, hleaves⟩

/-! ## Scopes and branches -/

theorem Plan.FreeScopes.head (h : Γ.FreeScopes L) : ∀ x ∈ L.scopes.headD [], Γ.Free x := by
  cases hscopes : L.scopes with
  | nil => exact nofun
  | cons scope => exact h scope (hscopes ▸ mem_cons_self)

theorem Plan.Fits.pushScope (h : Γ.Fits ctx L finals) : Γ.Fits ctx L.pushScope finals :=
  { h with
    scopes := fun scope hscope x hx => by
      rcases mem_cons.mp hscope with rfl | hscope
      · cases hx
      · exact h.scopes scope hscope x hx }

theorem scope_places (h : Places ctx L.pushScope p code L') (hinits : p.inits <+: code.ops)
    (hgiven : ∀ Γ m finals, (Phrase.scope p).Given Γ m finals) : Places ctx L (.scope p)
      (code ++ .now (if endsTerminal (code.stop cur) then []
        else (L'.scopes.headD []).map Op.clear))
      L'.popScope := by
  intro finals
  obtain ⟨zones, sites, hplaced⟩ := h finals
  refine ⟨zones, sites, ?_, ?_, fun Γ hfits hcovers hready hadmits => ?_⟩
  · rw [hplaced.length, length_states_append]
    rfl
  · refine (hplaced.counted.of_perm ?_).congr rfl rfl (Nat.le_refl _) (Nat.le_refl _)
    refine machines_append_now ?_ code
    split
    · rfl
    · exact machinesInOps_clears _
  · have hholds := hplaced.holds Γ hfits.pushScope
      ⟨hcovers.tags, hcovers.symbols, hcovers.sites, hcovers.zones, hcovers.exits⟩ hready
      ⟨hadmits.stores, hadmits.tries⟩
    have hclears : Γ.Laid L.machine finals
        (if endsTerminal (code.stop cur) then [] else (L'.scopes.headD []).map Op.clear) := by
      split
      · exact .nil
      · exact Plan.laid_clears (Plan.FreeScopes.head hholds.scopes)
    refine ⟨?_, hholds.sites, fun scope hscope => ?_, hholds.exits, hgiven _ _ _⟩
    · have hcode := Plan.LaidCode.append hholds.code (.now hclears)
      rw [List.append_nil] at hcode
      rw [behind_append (show (Phrase.scope p).inits.length ≤ _ from hinits.length_le)]
      exact hcode
    · exact hholds.scopes scope (mem_of_mem_tail hscope)

/-- Both branches of a choice are laid out. -/
theorem branches_hold {zs' : List Zone}
    (hneeds : (Stmt.cond test yes no loc).needsLowering ctx.markers)
    (hyes : Placed ctx L (.branch (some yes)) Y L₁ finals zs ss)
    (hno : Placed ctx L₁ (.branch no) N L₂ finals zs' ss') (hgrows : L.Grows L₁)
    (hgrows' : L₁.Grows L₂) (hsize : L₁.size = L.size + Y.states.length)
    (hfits : Γ.Fits ctx L finals) (hcovers : Γ.Covers L L₂ (zs ++ zs') (ss ++ ss'))
    (hadmits : Γ.Admits ctx (.stmt (.cond test yes no loc))) :
    (∀ y ∈ test.writes, Γ.Free y) ∧ Γ.LaidCode L.machine finals zs Y ∧
      Γ.LaidCode L.machine finals zs' N ∧
      (∀ G ∈ ss ++ ss', Γ.Lies G) ∧ Γ.FreeScopes L₂ ∧ Γ.Leaves ctx L L₂ := by
  have hstores : (Phrase.stmt (.cond test yes no loc)).stores ctx.markers =
      test.writes ++ yes.stores ctx.markers ++ Stmt.storesElse ctx.markers no :=
        Stmt.orWrites_pos hneeds _
  have hparts : Γ.Admits ctx (.branch (some yes)) ∧ Γ.Admits ctx (.branch no) := by
    refine hadmits.split (Stmt.orNone_pos hneeds _).symm fun x hx => ?_
    rw [hstores, List.append_assoc]
    exact mem_append_right _ (mem_append.mpr hx)
  refine ⟨fun y hy => hadmits.stores y ?_,
    hyes.pair hno hgrows hgrows' hsize hfits hcovers ⟨trivial, trivial⟩ hparts |>.imp_right fun h =>
      ⟨h.1, h.2.2⟩⟩
  rw [hstores, List.append_assoc]
  exact mem_append_left _ hy

theorem cond_places {yesOps noOps : List Op}
    (hneeds : (Stmt.cond test yes no loc).needsLowering ctx.markers)
    (hyes : Places ctx L (.branch (some yes)) (.now yesOps) L₁)
    (hno : Places ctx L₁ (.branch no) (.now noOps) L') (hgrows : L.Grows L₁) (hgrows' : L₁.Grows L')
    (hsize : L₁.size = L.size) :
    Places ctx L (.stmt (.cond test yes no loc)) (.now [.cond test yesOps noOps]) L' := by
  intro finals
  obtain ⟨zs, ss, hplaced⟩ := hyes finals
  obtain ⟨zs', ss', hplaced'⟩ := hno finals
  refine ⟨zs ++ zs', ss ++ ss', ?_, ?_, fun Γ hfits hcovers _ hadmits => ?_⟩
  · rw [length_append, hplaced.length, hplaced'.length]
    rfl
  · rw [Phrase.tries, Stmt.tries, Stmt.orNone_pos hneeds]
    refine (hplaced.counted.append hplaced'.counted).of_perm (List.Perm.of_eq ?_)
    simp [machines_now, machinesInOps, machinesInOp]
  · obtain ⟨htest, hyes, hno, hsites, hscopes, hexits⟩ :=
      branches_hold hneeds hplaced hplaced' hgrows hgrows' hsize hfits hcovers hadmits
    obtain rfl := length_eq_zero_iff.mp hplaced.length
    obtain rfl := length_eq_zero_iff.mp hplaced'.length
    exact ⟨.now (.cond htest hyes.ops hno.ops .nil), hsites, hscopes, hexits, trivial⟩

theorem split_places (hneeds : (Stmt.cond test yes no loc).needsLowering ctx.markers)
    (hyes : Places ctx L (.branch (some yes)) Y L₁) (hno : Places ctx L₁ (.branch no) N L₂)
    (hgrows : L.Grows L₁) (hgrows' : L₁.Grows L₂) (hsize : L₁.size = L.size + Y.states.length)
    (hsize' : L₂.size = L₁.size + N.states.length)
    (henter : (L₂.reserve 1).enter (L₂.tagAt 0) = .ok L') :
    Places ctx L (.stmt (.cond test yes no loc))
      (Code.sealed cur (.now [.cond test (Y.sealed [] (.jump (L₂.tagAt 0))).ops
          (N.sealed [] (.jump (L₂.tagAt 0))).ops]) (.jump (L₂.tagAt 0)) ++
        ⟨[], (Y.sealed [] (.jump (L₂.tagAt 0))).states ++
          (N.sealed [] (.jump (L₂.tagAt 0))).states ++
          [[]]⟩) L' := by
  intro finals
  obtain ⟨zs, ss, hplaced⟩ := hyes finals
  obtain ⟨zs', ss', hplaced'⟩ := hno finals
  have hopens := (opens_of_enter henter).of_reserve
  rw [sealed_now_append]
  refine ⟨zs ++ zs' ++ [Zone.code finals], ss ++ ss', ?_, ?_, fun Γ hfits hcovers _ hadmits => ?_⟩
  · simp [hplaced.length, hplaced'.length]
  · have hjump : machinesInOp (.jump (L₂.tagAt 0)) = [] := rfl
    have hcounted : Counted L L' _ _ _ :=
      (hplaced.counted.append hplaced'.counted).before_open hopens
    have hperm := (machines_sealed hjump [] Y).append (machines_sealed hjump [] N)
    rw [Phrase.tries, Stmt.tries, Stmt.orNone_pos hneeds]
    refine hcounted.of_perm (List.Perm.trans ?_ hperm)
    simp only [Code.machines, machinesInOps_append, machinesInOps, machinesInOp,
      machinesInOps_sealing hjump, List.append_nil,
      flatMap_append, flatMap_cons, flatMap_nil, List.append_assoc]
    exact (perm_append_comm_assoc _ _ _).append_left _
  · obtain ⟨htest, hY, hN, hsites, hscopes, hexits⟩ :=
      branches_hold hneeds hplaced hplaced' hgrows hgrows' hsize hfits
        (hcovers.before hopens.grows) hadmits
    have hmachine : L₂.machine = L.machine := hgrows'.machine.trans hgrows.machine
    have hstands : Γ.Stands L₂.machine L₂.size (.code finals) := by
      have h := hcovers.zones.right.head
      rw [length_append, hplaced.length, hplaced'.length, ← Nat.add_assoc, ← hsize, ← hsize'] at h
      rwa [hmachine]
    have hresumes : Γ.Resumes L.machine finals (L₂.tagAt 0) :=
      hmachine ▸ Plan.resumes_of_enter (L := L₂.reserve 1) henter hcovers.tags
        (L₂.owner_reserve Nat.one_pos) hstands
    have hjump : Γ.Laid L.machine finals [.jump (L₂.tagAt 0)] := .jump hresumes.leads .nil
    have hY' : Γ.LaidCode L.machine finals zs (Y.sealed [] (.jump (L₂.tagAt 0))) := hY.sealed hjump
    have hN' : Γ.LaidCode L.machine finals zs' (N.sealed [] (.jump (L₂.tagAt 0))) := hN.sealed hjump
    refine ⟨⟨(Plan.Laid.cond htest hY'.ops hN'.ops .nil).append (Plan.laid_sealing hjump), ?_,
      fun z hz => ?_⟩,
      hsites, Plan.FreeScopes.opens hscopes hopens, hexits.before_open hopens, trivial⟩
    · exact rel_append (rel_append hY'.states hN'.states) (.cons (.code .nil) .nil)
    · rw [getLast?_concat] at hz
      cases hz
      rfl

end Rules

end Lowering

end Resumable
