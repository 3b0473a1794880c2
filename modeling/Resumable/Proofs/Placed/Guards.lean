import Resumable.Proofs.Placed.Labels

/-!
# The places of guards

* `TryLedgers` are the ledgers that lowering a try goes through, and `Ledger.site` is the guard of
  the try;
* `tryCatch_places`: the guard stands where the plan says, with its machine and its final code.
-/

namespace Resumable

open List

namespace Lowering

open Ledger Code

section Rules

variable {more : Code} {hs : List Handler} {finals : List MachineId} {cur ops : List Op}
  {ss ss' : List Site} {body : List Stmt} {cases : List SwitchCase} {xs : List SymbolId}
  {exits tags : List Tag} {zs : List Zone} {loc : Location} {Γ : Plan} {s : Stmt}
  {field x : SymbolId} {tag : Tag} {type : TypeRef} {ctx : Context} {L L' L₁ L₂ : Ledger}
  {r : Phrase} {code a b : Code}

variable {types : List TypeRef} {cs : List CatchClause} {rs : List (SymbolId × Option Expr)}
  {g : Ledger.GuardNames}

theorem handler_places {param : SymbolId}
    (hbody : Places ctx (L.captureLocal ctx param (CatchClause.paramTypeOf types))
      (.stmts body) code L') :
    Places ctx L (.handler param types body) code L' := by
  intro finals
  obtain ⟨zs, ss, hplaced⟩ := hbody finals
  obtain ⟨_, _, heq⟩ := L.captureLocal_eq ctx param (CatchClause.paramTypeOf types)
  refine ⟨zs, ss, hplaced.length, ?_, fun Γ hfits hcovers _ hadmits => ?_⟩
  · exact hplaced.counted.congr (by rw [heq]) rfl (Nat.le_of_eq (by rw [heq])) (Nat.le_refl _)
  · have hfree : Γ.Free param := hadmits.stores param mem_cons_self
    have hgrows := L.captureLocal_grows ctx param (CatchClause.paramTypeOf types)
    have hholds := hplaced.holds Γ
        (hfits.grow hgrows (Plan.FreeScopes.captureLocal hfits.scopes hfree ctx _))
      ⟨hcovers.tags, hcovers.symbols, hcovers.sites, by rw [heq]; exact hcovers.zones,
        by rw [heq]; exact hcovers.exits⟩ trivial
      ⟨fun x hx => hadmits.stores x (mem_cons_of_mem _ hx), hadmits.tries⟩
    exact ⟨hgrows.machine ▸ hholds.code, hholds.sites, hholds.scopes,
      Plan.Leaves.trans (.refl Γ ctx (by rw [heq])) hholds.exits hgrows.machine, trivial⟩

theorem handlers_places {param : Ident} (hx : param.symbol = some x)
    (henter : (L.reserve 1).enter (L.tagAt 0) = .ok L₁)
    (hbody : Places ctx L₁ (.scope (.handler x types body)) code L₂)
    (hrest : Places ctx L₂ (.handlers cs hs) more L') (hgrows : L₁.Grows L₂) (hgrows' : L₂.Grows L')
    (hsize : L₂.size = L₁.size + code.states.length) :
    Places ctx L (.handlers (.mk param types body :: cs) (⟨x, types, L.tagAt 0⟩ :: hs))
      (.opened ++ code.sealed cur .finish ++ more) L' := by
  have hmem : x ∈ (Phrase.handlers (.mk param types body :: cs)
      (⟨x, types, L.tagAt 0⟩ :: hs)).stores ctx.markers := by
    refine mem_append_left _ (mem_append_left _ ?_)
    rw [hx]
    exact mem_singleton_self x
  have htries : Stmt.triesAll ctx.markers body ++ Stmt.triesCatches ctx.markers cs =
      (Phrase.handlers (.mk param types body :: cs) (⟨x, types, L.tagAt 0⟩ :: hs)).tries
      ctx.markers := rfl
  refine .openWith (opens_of_enter henter).of_reserve hbody hrest hgrows hgrows' hsize rfl
    ⟨rfl, rfl, rfl⟩
    htries (fun y hy => ?_) (fun Γ m finals hready => ⟨trivial, hready⟩)
    fun Γ finals hT hstands hready hadmits hgiven => ⟨.finish .nil, fun h hh => ?_⟩
  · rcases hy with hy | hy
    · rcases mem_cons.mp hy with rfl | hy
      · exact hmem
      · exact mem_append_left _ (mem_append_right _ hy)
    · exact mem_append_right _ hy
  · rcases mem_cons.mp hh with rfl | hh
    · have hresumes : Γ.Resumes L.machine finals (L.tagAt 0) :=
        Plan.resumes_of_enter (L := L.reserve 1) henter hT (L.owner_reserve Nat.one_pos) hstands
      exact ⟨hadmits.stores x hmem, (show finals = [] from hready) ▸ hresumes⟩
    · exact hgiven h hh

theorem machinesInOps_initOps (rs : List (SymbolId × Option Expr)) :
    machinesInOps (initOps rs) = [] := by
  induction rs with
  | nil => rfl
  | cons r rs ih =>
    obtain ⟨x, init⟩ := r
    rw [initOps, flatMap_cons, machinesInOps_append]
    cases init with
    | none | some => exact ih

theorem opening_places (hbody : Places ctx L (.scope (.stmts body)) code L') :
    Places ctx L (.opening rs body) (.now (initOps rs) ++ code) L' := by
  intro finals
  obtain ⟨zs, ss, hplaced⟩ := hbody finals
  refine ⟨zs, ss, hplaced.length, ?_, fun Γ hfits hcovers hready hadmits => ?_⟩
  · refine hplaced.counted.of_perm ((machines_append _ _).trans (List.Perm.of_eq ?_))
    rw [machines_now, machinesInOps_initOps, nil_append]
  · have hholds := hplaced.holds Γ hfits hcovers trivial
      ⟨fun x hx => hadmits.stores x (mem_append_right _ hx), hadmits.tries⟩
    refine ⟨?_, hholds.sites, hholds.scopes, hholds.exits, trivial⟩
    have hbehind : (Code.now (initOps rs) ++ code).behind (initOps rs).length = code := by
      simp only [Code.behind, now_append, drop_left]
    rw [show (Phrase.opening rs body).inits = initOps rs from rfl, hbehind]
    exact hholds.code

theorem guarded_places (hbody : Places ctx L (.scope (.opening rs body)) code L₁)
    (hinits : initOps rs <+: code.ops) (hhandlers : Places ctx L₁ (.handlers cs hs) more L')
    (hgrows : L.Grows L₁) (hgrows' : L₁.Grows L') (hsize : L₁.size = L.size + code.states.length) :
    Places ctx L (.guarded rs body cs hs) (code.sealed cur .finish ++ more) L' := by
  intro finals
  have hlength := hinits.length_le
  obtain ⟨zs, ss, hplaced⟩ := hbody finals
  obtain ⟨zs', ss', hplaced'⟩ := hhandlers finals
  refine ⟨zs ++ zs', ss ++ ss', ?_, ?_, fun Γ hfits hcovers hready hadmits => ?_⟩
  · simp [hplaced.length, hplaced'.length]
  · refine (hplaced.counted.append hplaced'.counted).of_perm ((machines_append _ _).trans ?_)
    exact List.Perm.append_right _ (machines_sealed rfl cur code)
  · have hparts : Γ.Admits ctx (.scope (.opening rs body)) ∧ Γ.Admits ctx (.handlers cs hs) :=
      hadmits.split rfl fun x hx => mem_append.mpr hx
    obtain ⟨hfirst, hsecond, hgiven, hsites, hscopes, hexits⟩ :=
      hplaced.pair hplaced' hgrows hgrows' hsize hfits hcovers ⟨trivial, hready⟩ hparts
    have hseal : Γ.Laid L.machine finals (Code.sealing (code.stop cur) .finish) :=
      Plan.laid_sealing (.finish .nil)
    have hcode := (Plan.LaidCode.append hfirst (.now hseal)).append hsecond
    rw [List.append_nil] at hcode
    refine ⟨?_, hsites, hscopes, hexits, hgiven⟩
    rw [Code.sealed, Code.append_assoc, show (Phrase.guarded rs body cs hs).inits =
      initOps rs from rfl, behind_append hlength, ← Code.append_assoc]
    exact hcode

/-- The ops that go to waiting tags are routes. -/
theorem Plan.routeAll_laid (hfits : Γ.Fits ctx L finals)
    (hroute : L.routeAll ctx field tags = .ok (ops, L'))
    (htags : ∀ t ∈ tags, t ∈ ctx.tags ∨ t = .finished) (hT : L'.tags.Extends Γ.tags)
    (hexits : ∀ G ∈ Γ.sites, G.id = L.machine → L'.exits ⊆ G.exits) :
    Γ.Routes L.machine finals field tags ops ∧ Γ.FreeScopes L' ∧ Γ.Leaves ctx L L' := by
  induction tags generalizing L ops with
  | nil =>
    cases hroute
    exact ⟨.nil, hfits.scopes, .refl Γ ctx rfl⟩
  | cons tag tags ih =>
    obtain ⟨first, L₁, more, hfirst, hmore, rfl⟩ := routeAll_ok hroute
    have hgrows := route_grows hfirst
    have hgrows' := routeAll_grows hmore
    obtain ⟨hops, hscopes, hleaves⟩ := Plan.route_laid hfits hfirst (htags tag mem_cons_self)
      (hgrows'.tags.trans hT) fun G hG hid _ ht => hexits G hG hid (hgrows'.exits ht)
    obtain ⟨hrest, hscopes', hleaves'⟩ := ih (hfits.grow hgrows hscopes) hmore
      (fun t ht => htags t (mem_cons_of_mem _ ht))
      fun G hG hid => hexits G hG (hid.trans hgrows.machine)
    exact ⟨.cons rfl hops (hgrows.machine ▸ hrest), hscopes', hleaves.trans hleaves' hgrows.machine⟩

theorem machinesInOps_routeAll (h : L.routeAll ctx field tags = .ok (ops, L')) :
    machinesInOps ops = [] := by
  induction tags generalizing L ops with
  | nil =>
    cases h
    rfl
  | cons tag tags ih =>
    obtain ⟨first, L₁, more, hfirst, hmore, rfl⟩ := routeAll_ok h
    simp [machinesInOps, machinesInOp, machinesInOps_route hfirst, ih hmore]

/-- Control may pass the ops that go to waiting tags. -/
theorem endsTerminal_routeAll (h : L.routeAll ctx field tags = .ok (ops, L')) (op : Op)
    (hop : op.isTerminal = false) : endsTerminal (op :: ops) = false := by
  induction tags generalizing L ops op with
  | nil =>
    cases h
    exact hop
  | cons tag tags ih =>
    obtain ⟨first, L₁, more, hfirst, hmore, rfl⟩ := routeAll_ok h
    exact ih hmore _ (Bool.and_false _)

/-- Declaring the fields of a guard adds four variables and a machine. -/
theorem Ledger.declareGuard_eq (L : Ledger) (ctx : Context) (rs : List (SymbolId × TypeRef)) :
    ∃ captures, L.declareGuard ctx rs = { L with
      symbols := ((((L.symbols.declare "selector" .int .synthetic).2.declare "handling" .boolean
        .synthetic).2.declare "pending" .throwable .synthetic).2.declare "pendingJump" .int
          .synthetic).2
      captures := captures, nextMachine := L.nextMachine + 1 } := by
  have hresources : ∀ L : Ledger, ∃ captures,
      L.captureResources rs = { L with captures := captures } := by
    intro L
    induction rs generalizing L with
    | nil => exact ⟨_, rfl⟩
    | cons r rs ih =>
      obtain ⟨captures, h⟩ := ih (L.capture r.1 r.2 .localVar .retained)
      exact ⟨captures, h⟩
  obtain ⟨captures, h⟩ := hresources _
  exact ⟨captures, h⟩

/-- The fields of a guard steer machines. -/
theorem steers_of_declareGuard {T : SymbolTable} {rs : List (SymbolId × TypeRef)}
    (h : (L.declareGuard ctx rs).symbols.Extends T) :
    (L.declareGuard ctx rs).symbols.size = L.symbols.size + 4 ∧
      ∀ x ∈ [L.guardNames.selector, L.guardNames.inHandler, L.guardNames.pending,
        L.guardNames.pendingJump], T.Steers x := by
  obtain ⟨captures, heq⟩ := L.declareGuard_eq ctx rs
  rw [heq] at h ⊢
  have hpush : ∀ (t : SymbolTable) (name : String) (type : TypeRef) (i : Nat),
      name ∈ ["selector", "handling", "pending", "pendingJump"] → t.size = i →
      (t.declare name type .synthetic).2.Extends T → T.Steers ⟨i⟩ := by
    rintro t name type _ hname rfl hT
    exact ⟨_, hT t.size _ (SymbolTable.get?_declare t name type .synthetic), rfl, hname⟩
  have h₃ := (SymbolTable.declare_extends _ "pendingJump" .int .synthetic).trans h
  have h₂ := (SymbolTable.declare_extends _ "pending" .throwable .synthetic).trans h₃
  have h₁ := (SymbolTable.declare_extends _ "handling" .boolean .synthetic).trans h₂
  refine ⟨by simp [SymbolTable.size_declare], fun x hx => ?_⟩
  simp only [mem_cons, not_mem_nil, or_false] at hx
  rcases hx with rfl | rfl | rfl | rfl
  · exact hpush L.symbols _ _ _ (by decide) rfl h₁
  · exact hpush _ _ _ _ (by decide) (by simp [SymbolTable.size_declare]) h₂
  · exact hpush _ _ _ _ (by decide) (by simp [SymbolTable.size_declare]) h₃
  · exact hpush _ _ _ _ (by decide) (by simp [SymbolTable.size_declare]) h

/-- The final code of a try that is lowered in that ledger, with what ends it. -/
abbrev Ledger.finalCode (L : Ledger) (code : Code) (ops : List Op) : Code :=
  Code.sealed [] (code ++ .now ops) (.jump (L.tagAt 2))

/-- The guard of a try that is lowered in that ledger. -/
def Ledger.site (L : Ledger) (finals : List MachineId) (xs : List SymbolId) (hs : List Handler)
    (inner : Code) (Lin : Ledger) (zones : List Zone) (final : Code) : Site where
  outer := L.machine
  place := L.size
  tag := L.tagAt 0
  finals := finals
  machine := inner.machine ⟨L.nextMachine⟩ L.guardNames.selector
  fields := ⟨xs, hs, L.guardNames.inHandler, L.guardNames.pending, L.guardNames.pendingJump⟩
  exits := Lin.exits
  zones := .first :: zones
  known := Lin.tags
  final := final.ops

/-- A plan that agrees with lowering agrees with it inside a guard. -/
theorem Plan.Fits.nest {G : Site} (h : Γ.Fits ctx L finals) (hgrows : L.Grows L₂)
    (hscopes : Γ.FreeScopes L₂) (hnext : L₂.nextMachine = L.nextMachine + 1) (hG : G ∈ Γ.sites)
    (hid : G.id = ⟨L.nextMachine⟩) (hpending : G.fields.pendingJump = L.guardNames.pendingJump) :
    Γ.Fits ctx (L₂.nest ⟨L.nextMachine⟩ L.guardNames) [] := by
  have h₂ := h.grow hgrows hscopes
  refine ⟨h₂.known, h₂.older, fun t ht howner => ?_, ?_, hscopes, h₂.kept, fun hroot => ?_,
    fun field hfield => ?_, h₂.finished, h₂.finished_owner, h.unique, nofun⟩
  · have hlt := h.older t ht
    rw [howner] at hlt
    exact absurd hlt (Nat.lt_irrefl _)
  · show L.nextMachine < L₂.nextMachine
    rw [hnext]
    exact Nat.lt_succ_self _
  · cases hroot
  · cases hfield
    exact ⟨G, hG, hid, hpending⟩

/-- The states of the machine of a guard are laid out. -/
theorem laidAt_guard {inner X : Code} {Lin : Ledger}
    (hinner : Γ.LaidCode ⟨L.nextMachine⟩ [] zs (inner.behind (initOps rs).length))
    (hinits : initOps rs <+: inner.ops) (hrs : ∀ r ∈ rs, r.1 ∈ xs ∧ ∀ y ∈ writesOf? r.2, Γ.Free y)
    (hG : L.site finals xs hs inner Lin zs X ∈ Γ.sites) :
    Γ.LaidAt L.machine (.guard ⟨L.nextMachine⟩ finals)
      [L.guardNames.op ⟨L.nextMachine⟩ xs hs inner, .jump (L.tagAt 1)] := by
  have hops : inner.ops = initOps rs ++ inner.ops.drop (initOps rs).length :=
    (prefix_iff_eq_append.mp hinits).symm
  have hfirst : Γ.LaidAt ⟨L.nextMachine⟩ .first inner.ops := by
    rw [hops]
    exact Plan.LaidAt.first (G := L.site finals xs hs inner Lin zs X) hG hrs hinner.ops
  have htiles := Plan.tiles_of_code hfirst hinner.states ⟨L.nextMachine⟩ L.guardNames.selector
  exact Plan.LaidAt.guard (G := L.site finals xs hs inner Lin zs X) hG htiles.length htiles.laid

/-- Final code is laid out with what ends it. -/
theorem settle_laid {G : Site} (hfits : Γ.Fits ctx L G.finals)
    (hcode : Γ.LaidCode L.machine (G.id :: G.finals) zs code)
    (hsettle : settleOps L ctx (code.stop cur) g G.exits = .ok (ops, L'))
    (hpending : G.fields.pending = g.pending) (hpendingJump : G.fields.pendingJump = g.pendingJump)
    (hG : G ∈ Γ.sites) (houter : G.outer = L.machine)
    (htags : ∀ t ∈ G.exits, t ∈ ctx.tags ∨ t = .finished) (hT : L'.tags.Extends Γ.tags)
    (hexits : ∀ G ∈ Γ.sites, G.id = L.machine → L'.exits ⊆ G.exits)
    (hend : Γ.Resumes L.machine G.finals G.endTag) :
    Γ.LaidCode L.machine (G.id :: G.finals) zs ((code ++ .now ops).sealed cur (.jump G.endTag)) ∧
      Γ.FreeScopes L' ∧ Γ.Leaves ctx L L' := by
  unfold settleOps at hsettle
  split at hsettle
  · next hterminal =>
    cases hsettle
    have hleads := hend.leads.weaken (suffix_cons G.id G.finals)
    rw [Code.append_nil]
    exact ⟨hcode.sealed (.jump hleads .nil), hfits.scopes, .refl Γ ctx rfl⟩
  · next hterminal =>
    cases hroute : L.routeAll ctx g.pendingJump G.exits with
    | error =>
      rw [hroute] at hsettle
      cases hsettle
    | ok r =>
      obtain ⟨routes, L₁⟩ := r
      rw [hroute] at hsettle
      cases hsettle
      obtain ⟨hroutes, hscopes, hleaves⟩ := Plan.routeAll_laid hfits hroute htags hT hexits
      refine ⟨?_, hscopes, hleaves⟩
      -- control passes the routes, so that the way behind the guard stands at the very end
      have hpass : endsTerminal (.rethrow g.pending :: routes) = false :=
        endsTerminal_routeAll hroute _ rfl
      rw [sealed_append, sealed_now _ (cons_ne_nil _ _) hpass, ← hpending]
      have hend' := Plan.Laid.settle hG houter rfl (hpendingJump ▸ hroutes) hend .nil
      have happend := hcode.append (.now hend')
      rwa [List.append_nil] at happend

theorem tryCatch_code (a b : List Op) (X : Code) :
    Code.now a ++ .opened ++ .now b ++ .opened ++ X ++ .opened =
      ⟨a, b :: X.ops :: (X.states ++ [[]])⟩ := by
  obtain ⟨ops, ss⟩ := X
  have hrest := mk_append_states ops ss [[]]
  simp only [Code.now, Code.opened, mk_nil_append, mk_cons_append, List.append_nil,
    nil_append, hrest]

theorem machinesInStates_numbered (n : Nat) (ss : List (List Op)) :
    machinesInStates (numbered n ss) = ss.flatMap machinesInOps := by
  induction ss generalizing n with
  | nil => rfl
  | cons s ss ih => rw [numbered, machinesInStates, ih, flatMap_cons]

theorem resources_eq {rs : List LocalDecl} (h : rs.map (fun d => d.name.symbol) = xs.map some) :
    rs.flatMap (fun d => d.name.symbol.toList) = xs := by
  induction rs generalizing xs with
  | nil =>
    cases xs with
    | nil => rfl
    | cons => cases h
  | cons d rs ih =>
    cases xs with
    | nil => cases h
    | cons =>
      rw [map_cons, map_cons] at h
      obtain ⟨hx, hxs⟩ := List.cons.inj h
      rw [flatMap_cons, hx, ih hxs]
      rfl

theorem initWrites_eq {rs : List LocalDecl} (h : rs.map (fun d => d.name.symbol) = xs.map some) :
    (xs.zip (rs.map LocalDecl.init)).flatMap (fun r => writesOf? r.2) = initWrites rs := by
  induction rs generalizing xs with
  | nil => rw [map_nil, zip_nil_right]; rfl
  | cons d rs ih =>
    cases xs with
    | nil => cases h
    | cons =>
      obtain ⟨_, hxs⟩ := List.cons.inj h
      rw [map_cons, zip_cons_cons, flatMap_cons, ih hxs, initWrites, initWrites, flatMap_cons]

theorem machinesInOps_guarded (inner : Code) (m : MachineId) (selector : SymbolId)
    (fields : GuardFields) (tag : Tag) :
    machinesInOps [.guarded (inner.machine m selector) fields, .jump tag] =
      inner.machine m selector :: inner.machines := by
  simp only [machinesInOps, machinesInOp, Code.machine, Machine.machines, machinesInStates_numbered,
    List.append_nil, flatMap_cons, Code.machines]

theorem machinesInOps_reset (g : Ledger.GuardNames) (xs : List SymbolId) :
    machinesInOps (g.reset xs) = [] := by
  unfold Ledger.GuardNames.reset
  rw [machinesInOps_append]
  induction xs with
  | nil => rfl
  | cons x xs ih => exact ih

theorem machinesInOps_settle (h : settleOps L ctx cur g exits = .ok (ops, L')) :
    machinesInOps ops = [] := by
  unfold settleOps at h
  split at h
  · cases h
    rfl
  · cases hroute : L.routeAll ctx g.pendingJump exits with
    | error =>
      rw [hroute] at h
      cases h
    | ok r =>
      obtain ⟨routes, L₁⟩ := r
      rw [hroute] at h
      cases h
      have hroutes : machinesInOps routes = [] := machinesInOps_routeAll hroute
      exact hroutes

section Try

variable {rs : List LocalDecl} {body : List Stmt} {catches : List CatchClause}
  {final : Option (List Stmt)} {loc : Location} {xs : List SymbolId} {hs : List Handler}
    {inner : Code}
  {Lin L₃ L₄ L₅ : Ledger} {ops : List Op} {types : List TypeRef}

/-- The ledgers that lowering a try goes through. -/
structure TryLedgers (ctx : Context) (L L₂ Lin L₃ L₄ L₅ L' : Ledger) (xs : List SymbolId)
    (types : List TypeRef) (code : Code) (ops : List Op) : Prop where
  guard : ((L.declareGuard ctx (xs.zip types)).reserve 3).enter (L.tagAt 0) = .ok L₂
  inner : (L₂.nest ⟨L.nextMachine⟩ L.guardNames).Grows Lin
  final : (Lin.unnest L₂).enter (L.tagAt 1) = .ok L₃
  grows : L₃.Grows L₄
  size : L₄.size = L₃.size + code.states.length
  settle : settleOps L₄ ctx (code.stop []) L.guardNames Lin.exits = .ok (ops, L₅)
  stop : L₅.enter (L.tagAt 2) = .ok L'

namespace TryLedgers

variable {finals : List MachineId} {zs zs' : List Zone} {X : Code}
variable (h : TryLedgers ctx L L₂ Lin L₃ L₄ L₅ L' xs types code ops)

include h

theorem grows₂ : L.Grows L₂ :=
  ((L.declareGuard_grows ctx _).trans (reserve_grows _ 3)).trans (enter_grows h.guard)

theorem grows₃ : L.Grows L₃ := (h.grows₂.trans (unnest_grows h.inner)).trans (enter_grows h.final)

theorem grows₅ : L₄.Grows L₅ := settleOps_grows h.settle

theorem grows' : L₅.Grows L' := enter_grows h.stop

theorem machine₄ : L₄.machine = L.machine := h.grows.machine.trans h.grows₃.machine

theorem size₂ : L₂.size = L.size + 1 := by
  rw [size_enter h.guard, size_reserve, size_declareGuard]

theorem size₃ : L₃.size = L.size + 2 := by
  rw [size_enter h.final]
  show L₂.size + 1 = _
  rw [h.size₂]

theorem size₅ : L₅.size = L.size + (2 + code.states.length) := by
  obtain ⟨exits, -, heq⟩ := settleOps_exits h.settle
  rw [heq]
  show L₄.size = _
  rw [h.size, h.size₃, Nat.add_assoc]

theorem eq₂ : ∃ captures tags size, L₂ = { L with
    symbols := (L.declareGuard ctx (xs.zip types)).symbols
    captures := captures, nextMachine := L.nextMachine + 1, tags := tags, size := size } := by
  obtain ⟨_, _, heq⟩ := enter_ok h.guard
  obtain ⟨_, heq'⟩ := L.declareGuard_eq ctx (xs.zip types)
  rw [heq, heq']
  exact ⟨_, _, _, rfl⟩

theorem nextMachine₂ : L₂.nextMachine = L.nextMachine + 1 := by
  obtain ⟨_, _, _, heq⟩ := h.eq₂
  rw [heq]

theorem scopes₂ : L₂.scopes = L.scopes := by
  obtain ⟨_, _, _, heq⟩ := h.eq₂
  rw [heq]

theorem exits₂ : L₂.exits = L.exits := by
  obtain ⟨_, _, _, heq⟩ := h.eq₂
  rw [heq]

theorem symbols₂ : L₂.symbols = (L.declareGuard ctx (xs.zip types)).symbols := by
  obtain ⟨_, _, _, heq⟩ := h.eq₂
  rw [heq]

theorem tags₂ : L₂.tags.Extends L'.tags :=
  ((((unnest_grows h.inner).trans (enter_grows h.final)).trans h.grows).trans
    (h.grows₅.trans h.grows')).tags

/-- The three tags of a try are tags of the machine at hand. -/
theorem owner (hT : L'.tags.Extends Γ.tags) {i : Nat} (hi : i < 3) :
    Γ.tags.owner (L.tagAt i) = L.machine := by
  have htag : L.tagAt i = (L.declareGuard ctx (xs.zip types)).tagAt i := by rw [tagAt_declareGuard]
  rw [htag, (((enter_grows h.guard).tags.trans h.tags₂).trans hT).owner_eq
    (tagAt_known _ hi), owner_reserve _ hi]
  exact (L.declareGuard_grows ctx _).machine

/-- The guards of a try are its own one, those inside it, and those of its final code. -/
theorem counted {ts ts' : List Stmt} (ht : (L.site finals xs hs inner Lin zs X).Serves s)
    (hin : Counted (L₂.nest ⟨L.nextMachine⟩ L.guardNames) Lin ts inner.machines ss)
    (hfinal : Counted L₃ L₄ ts' code.machines ss') : Counted L L' ([s] ++ ts ++ ts')
      ([inner.machine ⟨L.nextMachine⟩ L.guardNames.selector] ++ inner.machines ++ code.machines)
      ([L.site finals xs hs inner Lin zs X] ++ ss ++ ss') := by
  have hsize := (steers_of_declareGuard
      (SymbolTable.Extends.refl (L.declareGuard ctx (xs.zip types)).symbols)).1
  rw [← h.symbols₂] at hsize
  have hnext := h.nextMachine₂
  have hG : Counted L L₂ [s] [inner.machine ⟨L.nextMachine⟩ L.guardNames.selector]
      [L.site finals xs hs inner Lin zs X] := by
    refine ⟨rfl, hnext, by omega, ?_, ?_, pairwise_singleton _ _, .cons ht .nil, .refl _⟩
    · intro G hG
      obtain rfl := mem_singleton.mp hG
      exact ⟨⟨inner, rfl⟩, rfl, rfl, rfl⟩
    · intro G hG
      obtain rfl := mem_singleton.mp hG
      exact ⟨Nat.le_refl _, Nat.le_of_eq hsize.symm⟩
  obtain ⟨_, _, heq₃⟩ := enter_ok h.final
  obtain ⟨_, -, heq₅⟩ := settleOps_exits h.settle
  obtain ⟨_, _, heq'⟩ := enter_ok h.stop
  have hnext' : L'.nextMachine = L₄.nextMachine := by rw [heq', heq₅]
  have hin' : Counted L₂ L₃ ts inner.machines ss :=
    hin.congr rfl (by rw [heq₃]; rfl) (Nat.le_refl _) (enter_grows h.final).symbols.size_le
  exact (hG.append hin').append
    (hfinal.congr rfl hnext' (Nat.le_refl _) (h.grows₅.trans h.grows').symbols.size_le)

/-- Inside the guard, a plan agrees with lowering as it does outside. -/
theorem covers_inner (hfits : Γ.Fits ctx L finals)
    (hcovers : Γ.Covers L L' zs' ([L.site finals xs hs inner Lin zs X] ++ ss ++ ss')) :
    Γ.Covers (L₂.nest ⟨L.nextMachine⟩ L.guardNames) Lin zs ss := by
  have hgrows : Lin.tags.Extends L'.tags ∧ Lin.symbols.Extends L'.symbols := by
    have hrest := (enter_grows h.final).trans (h.grows.trans (h.grows₅.trans h.grows'))
    exact ⟨hrest.tags, hrest.symbols⟩
  have hG : L.site finals xs hs inner Lin zs X ∈ Γ.sites :=
    hcovers.sites _ (mem_append_left _ (mem_append_left _ (mem_singleton_self _)))
  refine ⟨hgrows.1.trans hcovers.tags, hgrows.2.trans hcovers.symbols, fun G' hG' => ?_,
    fun i z hz => ?_, fun G' hG' hid => ?_⟩
  · exact hcovers.sites G' (mem_append_left _ (mem_append_right _ hG'))
  · refine .inr ⟨_, hG, rfl, ?_⟩
    show (Zone.first :: zs)[1 + i]? = some z
    rw [Nat.add_comm]
    exact hz
  · rw [hfits.unique G' hG' _ hG hid]
    exact fun t ht => ht

/-- The guard of a try stands where it says. -/
theorem lies (hT : L'.tags.Extends Γ.tags) (hS : L'.symbols.Extends Γ.symbols)
    (hfits : Γ.Fits ctx L finals) (hG : L.site finals xs hs inner Lin zs X ∈ Γ.sites)
    (hzones : Γ.Zoned L.machine L.size (.guard ⟨L.nextMachine⟩ finals ::
      .final ⟨L.nextMachine⟩ finals :: zs')) (hresources : ∀ x ∈ xs, ¬ Γ.symbols.Steers x)
    (hhandlers : ∀ c ∈ hs, Γ.Free c.param ∧ Γ.Resumes ⟨L.nextMachine⟩ [] c.entry) :
    Γ.Lies (L.site finals xs hs inner Lin zs X) := by
  have hT₃ : L₃.tags.Extends Γ.tags := (h.grows.trans (h.grows₅.trans h.grows')).tags.trans hT
  have hS₂ : L₂.symbols.Extends Γ.symbols :=
    (((unnest_grows h.inner).trans (enter_grows h.final)).trans
      (h.grows.trans (h.grows₅.trans h.grows'))).symbols.trans hS
  have hguard := (target_of_enter h.guard (h.tags₂.trans hT)).1
  have hfinal := (target_of_enter h.final hT₃).1
  rw [size_reserve, size_declareGuard] at hguard
  have hsize : (Lin.unnest L₂).size = L.size + 1 := h.size₂
  rw [hsize] at hfinal
  have hknown : Lin.tags.Extends Γ.tags :=
    (enter_grows h.final).tags.trans ((h.grows.trans (h.grows₅.trans h.grows')).tags.trans hT)
  refine ⟨hguard, h.owner hT (i := 0) (by decide), hzones.head, hfinal,
    h.owner hT (i := 1) (by decide),
    hzones.tail.head, hknown, .inr ⟨_, hG, rfl, rfl⟩, ?_, hresources, hhandlers, hfits.machine,
    hfits.finals⟩
  rw [h.symbols₂] at hS₂
  exact (steers_of_declareGuard hS₂).2

end TryLedgers

/-- The ops of a try, in their zones. -/
theorem tryCatch_laid {zs' : List Zone} {X : Code}
    {rs : List (SymbolId × Option Expr)} (hG : L.site finals xs hs inner Lin zs X ∈ Γ.sites)
    (hinner : Γ.LaidCode ⟨L.nextMachine⟩ [] zs (inner.behind (initOps rs).length))
    (hinits : initOps rs <+: inner.ops) (hrs : ∀ r ∈ rs, r.1 ∈ xs ∧ ∀ y ∈ writesOf? r.2, Γ.Free y)
    (hX : Γ.LaidCode L.machine (⟨L.nextMachine⟩ :: finals) zs' X) :
    Γ.LaidCode L.machine finals
      (.guard ⟨L.nextMachine⟩ finals :: .final ⟨L.nextMachine⟩ finals :: (zs' ++ [.code finals]))
      (.now (L.guardNames.reset xs ++ [.jump (L.tagAt 0)]) ++ .opened ++
        .now [L.guardNames.op ⟨L.nextMachine⟩ xs hs inner, .jump (L.tagAt 1)] ++ .opened ++ X ++
          .opened) := by
  rw [tryCatch_code]
  refine ⟨.enter hG rfl rfl .nil, ?_, fun z hz => ?_⟩
  · refine .cons (laidAt_guard hinner hinits hrs hG)
      (.cons (.final (G := L.site finals xs hs inner Lin zs X) hG hX.ops) ?_)
    exact rel_append hX.states (.cons (.code .nil) .nil)
  · rw [getLast?_cons_cons, ← cons_append, getLast?_concat] at hz
    cases hz
    rfl

theorem tryCatch_machines {a b : List Op} {X : Code} (ha : machinesInOps a = []) :
    (Code.now a ++ .opened ++ .now b ++ .opened ++ X ++ .opened).machines =
      machinesInOps b ++ X.machines := by
  rw [tryCatch_code]
  simp [Code.machines, ha, machinesInOps]

theorem tryCatch_places
    (hneeds : (Stmt.tryCatch rs body catches final loc).needsLowering ctx.markers)
    (hxs : rs.map (fun d => d.name.symbol) = xs.map some)
    (h : TryLedgers ctx L L₂ Lin L₃ L₄ L₅ L' xs (rs.map LocalDecl.type) code ops)
    (hinner : Places ctx (L₂.nest ⟨L.nextMachine⟩ L.guardNames)
      (.guarded (xs.zip (rs.map LocalDecl.init)) body catches hs) inner Lin)
    (hinits : initOps (xs.zip (rs.map LocalDecl.init)) <+: inner.ops)
    (hcode : Places ctx L₃ (.final final) code L₄)
    (hmade : Made ctx (L₂.nest ⟨L.nextMachine⟩ L.guardNames) []
      (.guarded (xs.zip (rs.map LocalDecl.init)) body catches hs) inner Lin)
    (hmade' : Made ctx L₃ [] (.final final) code L₄) :
    Places ctx L (.stmt (.tryCatch rs body catches final loc))
      (.now (L.guardNames.reset xs ++ [.jump (L.tagAt 0)]) ++ .opened ++
        .now [L.guardNames.op ⟨L.nextMachine⟩ xs hs inner, .jump (L.tagAt 1)] ++ .opened ++
        L.finalCode code ops ++ .opened) L' := by
  intro finals
  obtain ⟨zs, ss, hplaced⟩ := hinner []
  obtain ⟨zs', ss', hplaced'⟩ := hcode (⟨L.nextMachine⟩ :: finals)
  have hnames : (Stmt.tryCatch rs body catches final loc).resourceNames = xs := resources_eq hxs
  have hserves : ∀ finals zs, (L.site finals xs hs inner Lin zs (L.finalCode code ops)).Serves
      (.tryCatch rs body catches final loc) :=
    fun finals zs => .made hxs rfl hmade rfl rfl hmade'
      ((ops_prefix_append code _).trans (ops_prefix_append _ _))
  refine ⟨.guard ⟨L.nextMachine⟩ finals :: .final ⟨L.nextMachine⟩ finals ::
    (zs' ++ [Zone.code finals]),
    [L.site finals xs hs inner Lin zs (L.finalCode code ops)] ++ ss ++ ss', ?_, ?_,
    fun Γ hfits hcovers _ hadmits => ?_⟩
  · rw [tryCatch_code]
    simp [hplaced'.length]
  · have hcounted : Counted L L' _ _
        ([L.site finals xs hs inner Lin zs (L.finalCode code ops)] ++ ss ++ ss') :=
      h.counted (hserves finals zs) hplaced.counted hplaced'.counted
    have hall : [Stmt.tryCatch rs body catches final loc] ++
        (Phrase.guarded (xs.zip (rs.map LocalDecl.init)) body catches hs).tries ctx.markers ++
        (Phrase.final final).tries ctx.markers =
        (Phrase.stmt (.tryCatch rs body catches final loc)).tries ctx.markers := by
      simp only [Phrase.tries, Stmt.tries, Stmt.orNone_pos hneeds, List.append_assoc, cons_append,
        nil_append]
    rw [hall] at hcounted
    refine hcounted.of_perm ?_
    rw [tryCatch_machines (by rw [machinesInOps_append, machinesInOps_reset]; rfl)]
    refine List.Perm.append (List.Perm.of_eq ?_) ((machines_sealed rfl _ _).trans ?_)
    · rw [singleton_append, ← machinesInOps_guarded]
    · refine (machines_append _ _).trans (List.Perm.of_eq ?_)
      rw [machines_now, machinesInOps_settle h.settle, List.append_nil]
  · have hG : L.site finals xs hs inner Lin zs (L.finalCode code ops) ∈ Γ.sites :=
      hcovers.sites _ (mem_append_left _ (mem_append_left _ (mem_singleton_self _)))
    have hstores : ∀ x, x ∈ initWrites rs ∨ x ∈ Stmt.storesAll ctx.markers body ∨
        x ∈ Stmt.storesCatches ctx.markers catches ∨ x ∈ Stmt.storesFinal ctx.markers final →
          Γ.Free x := by
      intro x hx
      refine hadmits.stores x ?_
      rw [Phrase.stores, Stmt.stores, Stmt.orWrites, if_pos hneeds]
      simpa [or_assoc] using hx
    have hnot := hadmits.tries
    simp only [Phrase.tries, Stmt.tries, Stmt.orNone_pos hneeds, mem_cons, mem_append] at hnot
    have hscopes₂ : Γ.FreeScopes L₂ := by
      intro scope hscope
      rw [h.scopes₂] at hscope
      exact hfits.scopes scope hscope
    have hin := hplaced.holds Γ (hfits.nest h.grows₂ hscopes₂ h.nextMachine₂ hG rfl rfl)
      (h.covers_inner hfits hcovers) rfl
      ⟨fun x hx => hstores x ?_, fun t ht => hnot t ?_⟩
    rotate_left
    · rw [Phrase.stores, initWrites_eq hxs] at hx
      simp only [mem_append] at hx
      exact (or_assoc.mp hx).imp_right fun hx => hx.imp_right .inl
    · simp only [Phrase.tries, mem_append] at ht
      exact .inr (.inl ht)
    have hscopes₃ : Γ.FreeScopes L₃ := by
      obtain ⟨_, _, heq⟩ := enter_ok h.final
      rw [heq]
      exact hin.scopes
    have hfits₃ : Γ.Fits ctx L₃ finals := hfits.grow h.grows₃ hscopes₃
    have hlt₃ : L.nextMachine < L₃.nextMachine :=
      Nat.lt_of_lt_of_le (Nat.lt_of_lt_of_eq (Nat.lt_succ_self _) h.nextMachine₂.symm)
        ((unnest_grows h.inner).trans (enter_grows h.final)).nextMachine
    have hzones := hcovers.zones
    have hcovers₃ : Γ.Covers L₃ L₄ zs' ss' := by
      refine ⟨(h.grows₅.trans h.grows').tags.trans hcovers.tags,
        (h.grows₅.trans h.grows').symbols.trans hcovers.symbols,
        fun G hG => hcovers.sites G (mem_append_right _ hG), ?_, fun G hG hid t ht => ?_⟩
      · rw [h.grows₃.machine, h.size₃]
        exact hzones.tail.tail.left
      · exact hcovers.exits G hG (hid.trans h.grows₃.machine) ((h.grows₅.trans h.grows').exits ht)
    have hfin := hplaced'.holds Γ (hfits₃.weaken hlt₃) hcovers₃ trivial
      ⟨fun x hx => hstores x (.inr (.inr (.inr hx))), fun t ht => hnot t (.inr (.inr ht))⟩
    have hmachine₅ : L₅.machine = L.machine := h.grows₅.machine.trans h.machine₄
    have hend : Γ.Resumes L.machine finals (L.tagAt 2) := by
      rw [← hmachine₅]
      refine Plan.resumes_of_enter_owner h.stop hcovers.tags ?_ ?_
      · rw [hmachine₅]
        exact h.owner hcovers.tags (by decide)
      · have hlast := hzones.tail.tail.right.head
        rw [hplaced'.length, Nat.add_assoc L.size, Nat.add_assoc L.size] at hlast
        rw [hmachine₅, h.size₅]
        exact hlast
    have hfits₄ : Γ.Fits ctx L₄ finals := hfits₃.grow h.grows hfin.scopes
    have hmachine₃ : L₄.machine = L₃.machine := h.grows.machine
    obtain ⟨hX, hscopes₅, hleaves₅⟩ :=
      settle_laid (G := L.site finals xs hs inner Lin zs (L.finalCode code ops)) hfits₄
      (hmachine₃ ▸ hfin.code) h.settle rfl rfl hG h.machine₄.symm
      (fun t ht => (hin.exits t ht).elim (fun ht => absurd ht not_mem_nil) And.left)
      (h.grows'.tags.trans hcovers.tags)
      (fun G hG hid t ht => hcovers.exits G hG (hid.trans h.machine₄) (h.grows'.exits ht))
      (h.machine₄ ▸ hend)
    rw [h.machine₄] at hX
    have hlies := h.lies hcovers.tags hcovers.symbols hfits hG hzones
        (fun x hx => hnot _ (.inl rfl) x (hnames ▸ hx))
      hin.given
    have hrs : ∀ r ∈ xs.zip (rs.map LocalDecl.init), r.1 ∈ xs ∧ ∀ y ∈ writesOf? r.2, Γ.Free y := by
      refine fun r hr => ⟨(of_mem_zip hr).1, fun y hy => hstores y (.inl ?_)⟩
      rw [← initWrites_eq hxs]
      exact mem_flatMap.mpr ⟨r, hr, hy⟩
    have hlaid := tryCatch_laid hG hin.code hinits hrs hX
    refine ⟨hlaid, fun G hG => ?_, ?_, ?_, trivial⟩
    · rcases mem_append.mp hG with hG | hG
      · rcases mem_append.mp hG with hG | hG
        · rw [mem_singleton.mp hG]
          exact hlies
        · exact hin.sites G hG
      · exact hfin.sites G hG
    · obtain ⟨_, _, heq⟩ := enter_ok h.stop
      rw [heq]
      exact hscopes₅
    · obtain ⟨_, _, heq₃⟩ := enter_ok h.final
      obtain ⟨_, _, heq⟩ := enter_ok h.stop
      have hleaves : Γ.Leaves ctx L₃ L' :=
        (hfin.exits.trans hleaves₅ h.grows.machine).trans (.refl Γ ctx (by rw [heq]))
          (h.grows₅.machine.trans h.grows.machine)
      have hexits₃ : L₃.exits = L.exits := by
        rw [heq₃]
        exact h.exits₂
      exact Plan.Leaves.trans (.refl Γ ctx hexits₃) hleaves h.grows₃.machine

end Try

end Rules

end Lowering

end Resumable
