import Resumable.Proofs.Built
import Resumable.Proofs.Ended
import Resumable.Proofs.Visible

/-!
# The plan of a class

Every class that lowering gives is laid out by a plan.

* `Plan.Governs` says that a plan is that of a class: its machines are the root machine and those of
  the guards, their states have the zones of the plan, and the variables that steer them are theirs
  alone;
* `Procedure.lower_governed`: there is a plan for every class.
-/

namespace Resumable

open List

/-! ## Stores and resources -/

namespace Stmt

variable {m : Markers} {s : Stmt} {x : SymbolId}

theorem mem_storesAll {ss : List Stmt} : x ∈ storesAll m ss ↔ ∃ s ∈ ss, x ∈ s.stores m := by
  induction ss with
  | nil => simp [storesAll]
  | cons s ss ih => simp [storesAll, ih]

theorem mem_storesElse {no : Option Stmt} : x ∈ storesElse m no ↔ ∃ s ∈ no, x ∈ s.stores m := by
  cases no <;> simp [storesElse]

theorem mem_storesFinal {final : Option (List Stmt)} :
    x ∈ storesFinal m final ↔ ∃ s ∈ final.getD [], x ∈ s.stores m := by
  cases final <;> simp [storesFinal, mem_storesAll]

theorem mem_storesCases {cs : List SwitchCase} (hx : x ∈ storesCases m cs) :
    x ∈ writesCases cs ∨ ∃ s ∈ cs.flatMap SwitchCase.body, x ∈ s.stores m := by
  induction cs with
  | nil => cases hx
  | cons c cs ih =>
    obtain ⟨labels, isDefault, body⟩ := c
    simp [storesCases, writesCases, mem_storesAll, SwitchCase.body] at hx ih ⊢
    grind

theorem mem_storesCatches {cs : List CatchClause} (hx : x ∈ storesCatches m cs) :
    x ∈ writesCatches cs ∨ ∃ s ∈ cs.flatMap CatchClause.body, x ∈ s.stores m := by
  induction cs with
  | nil => cases hx
  | cons c cs ih =>
    obtain ⟨param, types, body⟩ := c
    simp [storesCatches, writesCatches, mem_storesAll, CatchClause.body] at hx ih ⊢
    grind

theorem mem_loopStores (hx : x ∈ s.loopStores m) :
    x ∈ s.writes ∨ x ∈ s.stores m ∨ ∃ t ∈ s.children, x ∈ t.stores m := by
  cases s with
  | whileLoop | doWhile | forLoop | forEach =>
    simp [loopStores, writes, children, mem_storesAll] at hx ⊢
    grind
  | _ => exact .inr (.inl hx)

/-- What the code of a statement stores to, the statement writes, or the code of one inside it
stores to. -/
theorem mem_stores (hx : x ∈ s.stores m) :
    x ∈ s.writes ∨ ∃ path t, Lies s.children path t ∧ x ∈ t.stores m := by
  have hchild : (∃ t ∈ s.children, x ∈ t.stores m) →
      ∃ path t, Lies s.children path t ∧ x ∈ t.stores m := by
    rintro ⟨t, ht, hx⟩
    exact ⟨[], t, .top ht, hx⟩
  by_cases hneeds : s.needsLowering m
  · cases s with
    | labeled label body =>
      -- the parts of a loop with a label are lowered in place of the loop
      rw [stores_labeled hneeds] at hx
      rcases mem_loopStores hx with hx | hx | ⟨t, ht, hx⟩
      · exact .inl hx
      · exact .inr ⟨[], body, .top (mem_singleton_self _), hx⟩
      · exact .inr ⟨[body], t, .inner (.top (mem_singleton_self _)) ht, hx⟩
    | empty | brk | cont => cases hx
    | _ =>
      refine .imp_right hchild ?_
      clear hchild
      simp [stores, orWrites, hneeds, writes, children, initWrites, LocalDecl.writes,
        mem_storesAll, mem_storesElse, mem_storesFinal] at hx ⊢
      grind [mem_storesCases, mem_storesCatches]
  · exact .inl (stores_of_plain (Bool.not_eq_true _ ▸ hneeds) ▸ hx)

/-- What the code of a statement stores to occurs somewhere in the statement. -/
theorem lies_of_stores (s : Stmt) :
    ∀ x ∈ s.stores m, ∃ path t, Lies [s] path t ∧ x ∈ t.symbols := by
  induction s using induct with
  | step s ih =>
    intro x hx
    rcases mem_stores hx with hx | ⟨path, t, ht, hx⟩
    · exact s.lies_of_writes x hx
    · obtain ⟨_, u, hu, hx⟩ := ih path t ht x hx
      obtain ⟨path, hu⟩ := Lies.inside ((Lies.top (mem_singleton_self s)).within ht) hu
      exact ⟨path, u, hu, hx⟩

variable {a b : List SymbolId} {ts ts' : List Stmt}

theorem names_append (h : (ts.flatMap resourceNames).Sublist a)
    (h' : (ts'.flatMap resourceNames).Sublist b) :
    ((ts ++ ts').flatMap resourceNames).Sublist (a ++ b) := by
  rw [flatMap_append]
  exact h.append h'

theorem orNone_sublist (h : (ts.flatMap resourceNames).Sublist a) :
    ((orNone m s ts).flatMap resourceNames).Sublist a := by
  unfold orNone
  split
  · exact h
  · exact nil_sublist _

mutual

/-- Resources are declared where they stand. -/
theorem tries_declares (m : Markers) (s : Stmt) :
    ((s.tries m).flatMap resourceNames).Sublist s.declares := by
  cases s with
  | block body | synchronized lock body => exact orNone_sublist (triesAll_declares m body)
  | cond test yes no =>
    exact orNone_sublist (names_append (tries_declares m yes) (triesElse_declares m no))
  | whileLoop test body | doWhile body => exact orNone_sublist (tries_declares m body)
  | forLoop init test update body =>
    exact orNone_sublist (names_append (triesAll_declares m init) (tries_declares m body))
  | forEach var iterable body =>
    exact orNone_sublist ((tries_declares m body).trans (sublist_append_right _ _))
  | switch selector cases => exact orNone_sublist (triesCases_declares m cases)
  | tryCatch resources body catches final =>
    have hinner := names_append
        (names_append (triesAll_declares m body) (triesCatches_declares m catches))
      (triesFinal_declares m final)
    have hall := (List.Sublist.refl (resources.flatMap fun d => d.name.symbol.toList)).append hinner
    rw [← List.append_assoc, ← List.append_assoc] at hall
    exact orNone_sublist hall
  | labeled label body loc =>
    cases body with
    | whileLoop test body | doWhile body => exact orNone_sublist (tries_declares m body)
    | forLoop init test update body =>
      exact orNone_sublist (names_append (triesAll_declares m init) (tries_declares m body))
    | forEach var iterable body =>
      exact orNone_sublist ((tries_declares m body).trans (sublist_append_right _ _))
    | _ => exact orNone_sublist (tries_declares m _)
  | _ => exact nil_sublist _

theorem triesAll_declares (m : Markers) (ss : List Stmt) :
    (resourcesAll m ss).Sublist (declaresAll ss) := by
  cases ss with
  | nil => exact .slnil
  | cons s ss => exact names_append (tries_declares m s) (triesAll_declares m ss)

theorem triesElse_declares (m : Markers) (no : Option Stmt) :
    ((triesElse m no).flatMap resourceNames).Sublist (declaresElse no) := by
  cases no with
  | none => exact .slnil
  | some s => exact tries_declares m s

theorem triesFinal_declares (m : Markers) (final : Option (List Stmt)) :
    ((triesFinal m final).flatMap resourceNames).Sublist (declaresFinal final) := by
  cases final with
  | none => exact .slnil
  | some body => exact triesAll_declares m body

theorem triesCases_declares (m : Markers) (cs : List SwitchCase) :
    ((triesCases m cs).flatMap resourceNames).Sublist (declaresCases cs) := by
  cases cs with
  | nil => exact .slnil
  | cons c cs =>
    obtain ⟨labels, isDefault, body⟩ := c
    exact names_append (triesAll_declares m body) (triesCases_declares m cs)

theorem triesCatches_declares (m : Markers) (cs : List CatchClause) :
    ((triesCatches m cs).flatMap resourceNames).Sublist (declaresCatches cs) := by
  cases cs with
  | nil => exact .slnil
  | cons c cs =>
    obtain ⟨param, types, body⟩ := c
    exact names_append ((triesAll_declares m body).trans (sublist_append_right _ _))
      (triesCatches_declares m cs)

end

end Stmt

namespace Lowering

/-! ## Machines that are laid out -/

namespace Plan

variable {Γ : Plan} {m : MachineId} {finals : List MachineId}

variable {ops : List Op}

theorem Route.no_machines {tag : Tag} (h : Γ.Route m finals tag ops) : machinesInOps ops = [] := by
  cases h with
  | within | finish | leave => rw [machinesInOps_append, machinesInOps_clears]; rfl

theorem Routes.no_machines {field : SymbolId} {tags : List Tag}
    (h : Γ.Routes m finals field tags ops) : machinesInOps ops = [] := by
  induction h with
  | nil => rfl
  | cons _ hroute _ ih => simp [machinesInOps, machinesInOp, hroute.no_machines, ih]

/-- Only the states of guards hold machines. -/
theorem Laid.no_machines (h : Γ.Laid m finals ops) : machinesInOps ops = [] := by
  induction h with
  | nil => rfl
  | plain _ _ ih | assign _ _ _ ih | clear _ _ ih | emit _ _ _ ih | jump _ _ ih | finish _ ih
  | switch _ _ _ ih =>
    exact ih
  | cond _ _ _ _ ihYes ihNo ih => simp [machinesInOps, machinesInOp, ihYes, ihNo, ih]
  | synchronized _ _ _ ihBody ih => simp [machinesInOps, machinesInOp, ihBody, ih]
  | route hroute _ ih => rw [machinesInOps_append, hroute.no_machines, ih]; rfl
  | @enter G ops _ _ _ _ ih =>
    have hreset : machinesInOps G.reset = [] := by
      unfold Site.reset
      rw [machinesInOps_append]
      induction G.fields.resources with
      | nil => rfl
      | cons x xs ih => exact ih
    rw [machinesInOps_append, hreset]
    exact ih
  | settle _ _ _ hroutes _ _ ih =>
    have hroutes' := hroutes.no_machines
    simp [machinesInOps, machinesInOp, machinesInOps_append, hroutes', ih]

theorem mem_machinesInStates {states : List MachineState} {M : Machine}
    (h : M ∈ machinesInStates states) : ∃ state ∈ states, M ∈ machinesInOps state.ops := by
  induction states with
  | nil => cases h
  | cons state states ih =>
    obtain ⟨id, ops⟩ := state
    rcases mem_append.mp h with h | h
    · exact ⟨_, mem_cons_self, h⟩
    · obtain ⟨state, hstate, hM⟩ := ih h
      exact ⟨state, mem_cons_of_mem _ hstate, hM⟩

/-- The machines in a state are those of guards, and they are laid out. -/
theorem LaidAt.machines {z : Zone} (h : Γ.LaidAt m z ops) :
    ∀ M ∈ machinesInOps ops, ∃ G ∈ Γ.sites, G.machine = M ∧
      Γ.Tiles G.id G.zones G.machine.states := by
  induction h with
  | code hops | final _ hops =>
    intro M hM
    rw [hops.no_machines] at hM
    cases hM
  | poll hops =>
    intro M hM
    have hnone : machinesInOps _ = [] := hops.no_machines
    simp [machinesInOps, machinesInOp, hnone] at hM
  | @first G rs ops hG hrs hops =>
    intro M hM
    rw [machinesInOps_append, machinesInOps_initOps, hops.no_machines] at hM
    cases hM
  | @guard G hG hlength hstates ih =>
    intro M hM
    have hsplit : machinesInOps [.guarded G.machine G.fields, .jump G.finalTag] =
        G.machine :: machinesInStates G.machine.states := by
      obtain ⟨id, selector, states⟩ := G.machine
      simp [machinesInOps, machinesInOp, Machine.machines, Machine.states]
    rw [hsplit] at hM
    rcases mem_cons.mp hM with rfl | hM
    · exact ⟨G, hG, rfl, hlength, hstates⟩
    · obtain ⟨state, hstate, hM⟩ := mem_machinesInStates hM
      obtain ⟨place, hplace⟩ := mem_iff_getElem?.mp hstate
      have hlt : place < G.zones.length := hlength ▸ (List.getElem?_eq_some_iff.mp hplace).1
      exact ih place _ state (getElem?_eq_getElem hlt) hplace M hM

end Plan

/-! ## The plan of a class -/

/-- The plan is that of a class that was made of a procedure. -/
structure Plan.Governs (Γ : Plan) (p : Procedure) (settings : Settings) (cls : GeneratorClass) :
    Prop where
  tags : Γ.tags = cls.tags
  root : cls.advance.id = .root
  selector : Γ.selector = cls.advance.selector
  steers : Γ.symbols.Steers Γ.selector
  tiles : Γ.Tiles .root Γ.zones cls.advance.states
  start : Γ.Stands .root 0 (.code [])
  lies : ∀ G ∈ Γ.sites, Γ.Lies G
  ids : Γ.sites.map (fun G => G.id.number) = List.range' 1 Γ.sites.length
  regular : ∀ G ∈ Γ.sites, G.Regular
  after : ∀ G ∈ Γ.sites, Γ.selector.index < G.selector.index
  spaced : Γ.sites.Pairwise Site.Before
  tries : List.Forall₂ Site.Serves Γ.sites
    (Stmt.triesAll (p.context settings).markers p.resolve.1.body)
  machines : cls.advance.machines.Perm (cls.advance :: Γ.sites.map Site.machine)
  ended : ∀ M ∈ cls.advance.machines, ∀ s ∈ M.states, endsTerminal s.ops
  code : ∃ c : Code, cls.advance = c.machine .root cls.advance.selector
  kept : ∀ x, Γ.kept x ↔ x ∈ Stmt.resourcesAll (p.context settings).markers p.resolve.1.body ∧
    x ∉ Stmt.storesAll (p.context settings).markers p.resolve.1.body

theorem Site.Serves.names {G : Site} {t : Stmt} (h : G.Serves t) :
    t.resourceNames = G.fields.resources := by
  cases h with
  | made hxs => exact resources_eq hxs

/-- The resources of guards are those of the tries that they are made of. -/
theorem resources_of_serves {sites : List Site} {tries : List Stmt}
    (h : List.Forall₂ Site.Serves sites tries) :
    (sites.flatMap fun G => G.fields.resources) = tries.flatMap Stmt.resourceNames := by
  induction h with
  | nil => rfl
  | cons ht _ ih => rw [flatMap_cons, flatMap_cons, ih, ht.names]

end Lowering

open Lowering

section Class

variable {p : Procedure} {settings : Settings} {cls : GeneratorClass}

/-- The plan that is read off a blueprint. -/
def Blueprint.plan (b : Blueprint p settings cls) (zones : List Zone) (sites : List Site) :
    Plan where
  tags := b.known.tags
  symbols := b.known.symbols
  selector := cls.advance.selector
  sites := sites
  zones := .code [] :: zones
  kept := fun x => x ∈ Stmt.resourcesAll (p.context settings).markers p.resolve.1.body ∧
    x ∉ Stmt.storesAll (p.context settings).markers p.resolve.1.body

/-- The ledger with which the statements of a procedure begin. -/
abbrev Blueprint.start (b : Blueprint p settings cls) : Ledger :=
  (Ledger.initial p.resolve.2).captureParams (b.params.zip (p.resolve.1.params.map Param.type))

theorem Blueprint.start_eq (b : Blueprint p settings cls) :
    ∃ captures, b.start = { Ledger.initial p.resolve.2 with captures := captures } :=
  Ledger.captureParams_eq ..

/-- The variables of the source are still known, and none that lowering added. -/
theorem Blueprint.source_info (b : Blueprint p settings cls) {x : SymbolId}
    (hx : x ∈ p.resolve.1.paramNames ++ Stmt.declaresAll p.resolve.1.body) :
    ∃ info, b.known.symbols.get? x = some info ∧ info.kind ≠ .synthetic := by
  obtain ⟨info, hinfo, hkind⟩ := p.resolve_scoped.1.new x hx
  have hgrows : p.resolve.2.Extends b.known.symbols :=
    (SymbolTable.declare_extends p.resolve.2 "selector" .int .synthetic).trans
      ((Ledger.captureParams_grows (.initial p.resolve.2) _).trans b.made.grows).symbols
  exact ⟨info, hgrows x.index info hinfo, hkind⟩

/-- The variables of the source do not steer machines. -/
theorem Blueprint.not_steers (b : Blueprint p settings cls) {x : SymbolId}
    (hx : x ∈ p.resolve.1.paramNames ++ Stmt.declaresAll p.resolve.1.body) :
    ¬ b.known.symbols.Steers x := by
  rintro ⟨info, hinfo, hsynthetic, _⟩
  obtain ⟨info', hinfo', hkind⟩ := b.source_info hx
  cases hinfo'.symm.trans hinfo
  exact hkind hsynthetic

/-- Code stores to variables of the source. -/
theorem Procedure.stores_source {x : SymbolId} {m : Markers}
    (hx : x ∈ Stmt.storesAll m p.resolve.1.body) :
    x ∈ p.resolve.1.paramNames ++ Stmt.declaresAll p.resolve.1.body := by
  obtain ⟨s, hs, hx⟩ := Stmt.mem_storesAll.mp hx
  obtain ⟨path, t, ht, hx⟩ := s.lies_of_stores x hx
  have hsees : Stmt.SeesAll (· ∈ p.resolve.1.paramNames ++ Stmt.declaresAll p.resolve.1.body)
      p.resolve.1.body :=
    ⟨_, p.resolve_scoped.2, fun x hx => mem_append_left _ (mem_reverse.mp hx)⟩
  exact (hsees.sees (fun x hx => mem_append_right _ hx) s hs).mentions
    (fun x hx => mem_append_right _ (Stmt.mem_declaresAll hs hx)) ht x hx

theorem Blueprint.fits (b : Blueprint p settings cls) {zones : List Zone} {sites : List Site}
    (hids : sites.map (fun G => G.id.number) = List.range' 1 sites.length) :
    (b.plan zones sites).Fits (p.context settings) b.start [] := by
  obtain ⟨captures, heq⟩ := b.start_eq
  rw [heq]
  refine ⟨nofun, nofun, nofun, Nat.one_pos,
    nofun, fun x hx => ?_, fun _ => rfl, fun field hfield => (by cases hfield),
    rfl, rfl, fun G hG G' hG' hid => ?_, nofun⟩
  · have hdeclared := (Stmt.triesAll_declares _ _).subset hx.1
    have hlt := (p.resolve_scoped.1.lt x (mem_append_right _ hdeclared)).2
    show x.index < (p.resolve.2.declare "selector" .int .synthetic).2.size
    rw [SymbolTable.size_declare]
    exact Nat.lt_succ_of_lt hlt
  · refine inj_on_of_nodup_map (f := fun G : Site => G.id.number) ?_ hG hG'
      (congrArg MachineId.number hid)
    rw [show (b.plan zones sites).sites = sites from rfl, hids]
    exact nodup_range'

theorem Blueprint.governs (b : Blueprint p settings cls) {zones : List Zone} {sites : List Site}
    (h : Placed (p.context settings) b.start (.scope (.stmts p.resolve.1.body)) b.code b.known
      [] zones sites) :
    (b.plan zones sites).Governs p settings cls := by
  obtain ⟨captures, heq⟩ := b.start_eq
  have hcounted := h.counted
  have hids : sites.map (fun G => G.id.number) = List.range' 1 sites.length := by
    have hids := hcounted.ids
    rwa [heq] at hids
  have hcovers : (b.plan zones sites).Covers b.start b.known zones sites := by
    refine ⟨.refl _, .refl _, fun G hG => hG, fun i z hz => ?_, fun G hG hid => ?_⟩
    · rw [heq]
      refine .inl ⟨rfl, ?_⟩
      show (Zone.code [] :: zones)[1 + i]? = some z
      rw [Nat.add_comm]
      exact hz
    · have hmem : G.id.number ∈ List.range' 1 sites.length := hids ▸ mem_map_of_mem hG
      rw [hid, heq] at hmem
      exact absurd (mem_range'_1.mp hmem).1 (Nat.not_succ_le_zero 0)
  have hadmits : (b.plan zones sites).Admits (p.context settings)
      (.scope (.stmts p.resolve.1.body)) := by
    refine ⟨fun x hx => ⟨b.not_steers (Procedure.stores_source hx), fun hkept => hkept.2 hx⟩,
      fun x hx => ?_⟩
    intro y hy
    exact b.not_steers
      (mem_append_right _ ((Stmt.triesAll_declares _ _).subset (mem_flatMap.mpr ⟨x, hx, hy⟩)))
  have hholds := h.holds _ (b.fits hids) hcovers trivial hadmits
  have hadvance : cls.advance = (b.code.sealed [] .finish).machine .root
      (Ledger.initial p.resolve.2).selector :=
    congrArg GeneratorClass.advance b.class_eq
  have hmachine : b.start.machine = .root := by rw [heq]; rfl
  have hsymbols : b.start.symbols = (p.resolve.2.declare "selector" .int .synthetic).2 := by
    rw [heq]; rfl
  obtain ⟨hended, -⟩ := b.made.ended False.elim trivial
  have hlaid : (b.plan zones sites).LaidCode .root [] zones b.code := hmachine ▸ hholds.code
  have hmachines : cls.advance.machines = cls.advance :: (b.code.sealed [] .finish).machines := by
    rw [hadvance]
    simp only [Code.machine, Machine.machines, machinesInStates_numbered, flatMap_cons,
      Code.machines]
  have hgrows := b.made.grows.symbols
  rw [hsymbols] at hgrows
  refine ⟨?_, ?_, rfl, ?_, ?_, .inl ⟨rfl, rfl⟩, hholds.sites, hids, hcounted.regular,
    fun G hG => ?_, hcounted.spaced,
    hcounted.tries, ?_, fun M hM => ?_, ⟨b.code.sealed [] .finish, ?_⟩, fun x => Iff.rfl⟩
  · exact (congrArg GeneratorClass.tags b.class_eq).symm
  · rw [hadvance]
    rfl
  · rw [show (b.plan zones sites).selector = cls.advance.selector from rfl, hadvance]
    exact ⟨_, hgrows _ _ (SymbolTable.get?_declare p.resolve.2 "selector" .int .synthetic),
      rfl, by decide⟩
  · rw [hadvance]
    have hsealed : (b.plan zones sites).LaidCode .root [] zones (b.code.sealed [] .finish) :=
      hlaid.sealed (.finish .nil)
    exact Plan.tiles_of_code (.code hsealed.ops) hsealed.states .root _
  · have hwithin := (hcounted.within G hG).1
    rw [hsymbols, SymbolTable.size_declare] at hwithin
    rw [show (b.plan zones sites).selector = cls.advance.selector from rfl, hadvance]
    exact hwithin
  · rw [hmachines]
    exact ((Code.machines_sealed rfl [] b.code).trans hcounted.machines).cons _
  · rw [hmachines] at hM
    rcases mem_cons.mp hM with rfl | hM
    · rw [hadvance]
      exact (hended.sealed rfl).machine (Code.endsTerminal_stop_sealed rfl [] b.code) .root _
    · exact (hended.sealed rfl).machines M hM
  · rw [hadvance]
    rfl

/-- **Every class has a plan.** -/
theorem Procedure.lower_governed (h : p.lower settings = .ok cls) :
    ∃ Γ : Plan, Γ.Governs p settings cls := by
  obtain ⟨b⟩ := p.lower_blueprint h
  obtain ⟨zones, sites, hplaced⟩ := b.made.placed trivial []
  exact ⟨_, b.governs hplaced⟩

end Class

end Resumable
