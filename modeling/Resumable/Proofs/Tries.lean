import Resumable.Proofs.Every
import Resumable.Proofs.Steady
import Resumable.Proofs.WellFormed

/-!
# Guards and tries

Every try that is lowered has its guard, and every guard is that of a try.

* `Guard.Lowers` ties a guard to a try: its resources and its handlers are those of the try, its
  machine is the code of what the try guards, and the state behind it starts the final code;
* `Plan.Governs.guards` and `Plan.Governs.mem_guards`: the guards of a class are those of its plan;
* `Plan.Governs.guard_lowers`: each one lowers the try that it is made of.
-/

namespace Resumable

open List Lowering

/-! ## Code in a machine -/

/-- The ops start with the code of a phrase. -/
def Begins (ph : Phrase) (ops : List Op) : Prop :=
  ∃ ctx L code L', Made ctx L [] ph code L' ∧ code.ops <+: ops

/-- The handler is that of a clause: its entry leads to a state that starts with the code of it. -/
structure Handler.Lowers (tags : TagTable) (states : List MachineState) (c : CatchClause)
    (h : Handler) :
    Prop where
  param : c.param.symbol = some h.param
  types : c.types = h.types
  entry : ∃ s ∈ states, tags.target? h.entry = some s.id ∧
    Begins (.scope (.handler h.param h.types c.body)) s.ops

/-- The guard is that of a try. -/
inductive Guard.Lowers (g : Guard) (cls : GeneratorClass) : Stmt → Prop where
  | mk {rs body catches final loc}
      /- it has the resources of the try, in their order -/
      (hresources : rs.map (fun d => d.name.symbol) = g.fields.resources.map some)
      /- its machine gives the resources their first values and runs the body, or a handler -/
      (hmachine : ∃ ctx L code L', Made ctx L []
        (.guarded (g.fields.resources.zip (rs.map LocalDecl.init)) body catches g.fields.handlers)
        code L' ∧
        g.machine = code.machine g.machine.id g.own)
      /- it has the handlers of the try, in their order -/
      (hhandlers : List.Forall₂ (Handler.Lowers cls.tags g.machine.states) catches
        g.fields.handlers)
      /- the state behind it is the final code -/
      (hfinal : cls.tags.target? g.finalTag = some ⟨g.number + 1⟩ ∧ ∃ m ∈ cls.advance.machines,
        m.id = g.place ∧
        m.selector = g.outer ∧ ∃ s ∈ m.states, s.id = ⟨g.number + 1⟩ ∧
          Begins (.final final) s.ops) :
      g.Lowers cls (.tryCatch rs body catches final loc)

namespace Lowering

/-- All states of code, if nothing stands before it. -/
def Code.blocks (c : Code) : List (List Op) := c.ops :: c.states

theorem Code.blocks_append (a : Code) {b : Code} (hb : b.ops = []) :
    (a ++ b).blocks = a.blocks ++ b.states := by
  obtain ⟨ops, ss⟩ := a
  induction ss generalizing ops with
  | nil => simp [blocks, hb]
  | cons s ss ih => exact congrArg (ops :: ·) (ih s)

variable {ctx : Context} {L L' : Ledger} {cur : List Op} {cs : List CatchClause} {hs : List Handler}
  {code : Code}

/-- The code of handlers starts in a state of its own. -/
theorem Made.handlers_ops (h : Made ctx L cur (.handlers cs hs) code L') : code.ops = [] := by
  cases h with
  | noHandlers | handlers => rfl

/-- Every handler starts where its entry leads. The states of the machine so far are `before`. -/
theorem Made.handlers_lower {tags : TagTable} {id : MachineId} {selector : SymbolId} {c : Code}
    (h : Made ctx L cur (.handlers cs hs) code L') (htags : L'.tags.Extends tags)
    (before : List (List Op)) (hbefore : before.length = L.size)
    (hblocks : c.blocks = before ++ code.states) :
    List.Forall₂ (Handler.Lowers tags (c.machine id selector).states) cs hs := by
  generalize hph : Phrase.handlers cs hs = ph at h
  induction h generalizing cs hs before with
  | noHandlers =>
    cases hph
    exact .nil
  | @handlers ctx L cur param x types body cs hs code more L₁ L₂ L' hx henter hbody hrest _ ih =>
    cases hph
    have hstates : (Code.opened ++ code.sealed [] .finish ++ more).states =
        (code.sealed [] .finish).blocks ++ more.states :=
      Code.blocks_append (code.sealed [] .finish) hrest.handlers_ops
    rw [hstates] at hblocks
    have htags₁ : L₁.tags.Extends tags := (hbody.grows.trans hrest.grows).tags.trans htags
    have hsize : L₂.size = (before ++ (code.sealed [] .finish).blocks).length := by
      rw [hbody.size_eq, Ledger.size_enter henter, length_append, hbefore]
      simp [Code.blocks]
      omega
    refine .cons ⟨hx, rfl, ?_⟩
      (ih htags (before ++ (code.sealed [] .finish).blocks) hsize.symm ?_ rfl)
    · have hplace : c.blocks[L.size]? = some (code.sealed [] .finish).ops := by
        rw [hblocks, ← hbefore, getElem?_append_right (Nat.le_refl _), Nat.sub_self]
        rfl
      have hstate : (c.machine id selector).states[L.size]? =
          some (.mk ⟨L.size + 1⟩ (code.sealed [] .finish).ops) := by
        show (numbered 1 c.blocks)[L.size]? = _
        rw [getElem?_numbered, hplace, Nat.add_comm]
        rfl
      refine ⟨_, mem_of_getElem? hstate, (Ledger.target_of_enter henter htags₁).1, ctx, L₁, code,
        L₂, hbody, ?_⟩
      exact Code.ops_prefix_append code _
    · rw [hblocks, List.append_assoc]
  | _ => cases hph

/-- The handlers of a guard are those of the try that it is made of. -/
theorem Made.guarded_lower {tags : TagTable} {rs : List (SymbolId × Option Expr)} {body : List Stmt}
    (h : Made ctx L [] (.guarded rs body cs hs) code L') (hsize : L.size = 1)
    (htags : L'.tags.Extends tags) (id : MachineId) (selector : SymbolId) :
    List.Forall₂ (Handler.Lowers tags (code.machine id selector).states) cs hs := by
  cases h with
  | @guarded _ _ _ _ _ _ _ code more L₁ L' hbody hhandlers =>
    refine hhandlers.handlers_lower htags (code.sealed [] .finish).blocks ?_
      (Code.blocks_append _ hhandlers.handlers_ops)
    rw [hbody.size_eq, hsize]
    simp [Code.blocks, Nat.add_comm]

end Lowering

/-! ## The guards of a class -/

/-- Each of two lists that are related one by one has a partner in the other. -/
theorem forall₂_mem {α β : Type} {R : α → β → Prop} {as : List α} {bs : List β}
    (h : List.Forall₂ R as bs) : (∀ a ∈ as, ∃ b ∈ bs, R a b) ∧ ∀ b ∈ bs, ∃ a ∈ as, R a b := by
  induction h with
  | nil => simp
  | cons hab _ ih =>
    refine ⟨forall_mem_cons.mpr ⟨⟨_, mem_cons_self, hab⟩, fun a ha => ?_⟩,
      forall_mem_cons.mpr ⟨⟨_, mem_cons_self, hab⟩, fun b hb => ?_⟩⟩
    · obtain ⟨b, hb, hab⟩ := ih.1 a ha
      exact ⟨b, mem_cons_of_mem _ hb, hab⟩
    · obtain ⟨a, ha, hab⟩ := ih.2 b hb
      exact ⟨a, mem_cons_of_mem _ ha, hab⟩

mutual

theorem Machine.machines_sublist (m : Machine) :
    ∀ m' ∈ m.machines, m'.machines.Sublist m.machines := by
  obtain ⟨id, selector, states⟩ := m
  intro m' hm'
  rcases mem_cons.mp hm' with rfl | hm'
  · exact .refl _
  · exact (machinesInStates_sublist states m' hm').cons _

theorem machinesInStates_sublist (states : List MachineState) :
    ∀ m' ∈ machinesInStates states, m'.machines.Sublist (machinesInStates states) := by
  intro m' hm'
  cases states with
  | nil => cases hm'
  | cons state states =>
    obtain ⟨id, ops⟩ := state
    rcases mem_append.mp hm' with hm' | hm'
    · exact (machinesInOps_sublist ops m' hm').trans (sublist_append_left _ _)
    · exact (machinesInStates_sublist states m' hm').trans (sublist_append_right _ _)

theorem machinesInOps_sublist (ops : List Op) :
    ∀ m' ∈ machinesInOps ops, m'.machines.Sublist (machinesInOps ops) := by
  intro m' hm'
  cases ops with
  | nil => cases hm'
  | cons op ops =>
    rcases mem_append.mp hm' with hm' | hm'
    · exact (machinesInOp_sublist op m' hm').trans (sublist_append_left _ _)
    · exact (machinesInOps_sublist ops m' hm').trans (sublist_append_right _ _)

theorem machinesInOp_sublist (op : Op) :
    ∀ m' ∈ machinesInOp op, m'.machines.Sublist (machinesInOp op) := by
  intro m' hm'
  cases op with
  | guarded machine => exact machine.machines_sublist m' hm'
  | cond test yes no =>
    rcases mem_append.mp hm' with hm' | hm'
    · exact (machinesInOps_sublist yes m' hm').trans (sublist_append_left _ _)
    · exact (machinesInOps_sublist no m' hm').trans (sublist_append_right _ _)
  | synchronized lock body => exact machinesInOps_sublist body m' hm'
  | _ => cases hm'

end

variable {states : List MachineState}

/-- Where no machine occurs twice, it occurs in one state. -/
theorem place_unique (hnodup : (machinesInStates states).Nodup) {i j : Nat}
    {s s' : MachineState} {m : Machine} (hs : states[i]? = some s) (hs' : states[j]? = some s')
    (hm : m ∈ machinesInOps s.ops) (hm' : m ∈ machinesInOps s'.ops) : i = j := by
  induction states generalizing i j with
  | nil => cases hs
  | cons state states ih =>
    obtain ⟨id, ops⟩ := state
    obtain ⟨-, hrest, hdisjoint⟩ := nodup_append.mp hnodup
    have hlater : ∀ {k : Nat} {t : MachineState}, states[k]? = some t → m ∈ machinesInOps t.ops →
        m ∈ machinesInStates states := by
      intro k t ht hmt
      clear ih hdisjoint hrest hnodup hs hs'
      induction states generalizing k with
      | nil => cases ht
      | cons state states ih =>
        obtain ⟨id, ops⟩ := state
        cases k with
        | zero =>
          cases ht
          exact mem_append_left _ hmt
        | succ => exact mem_append_right _ (ih ht)
    cases i with
    | zero =>
      cases j with
      | zero => rfl
      | succ =>
        cases hs
        exact absurd rfl (hdisjoint m hm m (hlater hs' hm'))
    | succ =>
      cases j with
      | zero =>
        cases hs'
        exact absurd rfl (hdisjoint m hm' m (hlater hs hm))
      | succ => exact congrArg Nat.succ (ih hrest hs hs')

mutual

theorem guardsInOp_nil {place : MachineId} {outer : SymbolId} {exit : Option SymbolId}
    {number : Nat} {tag : Tag} (op : Op) (h : machinesInOp op = []) :
    guardsInOp place outer exit number tag op = [] := by
  cases op with
  | guarded machine =>
    obtain ⟨id, selector, states⟩ := machine
    cases h
  | cond test yes no =>
    obtain ⟨hyes, hno⟩ := append_eq_nil_iff.mp h
    exact append_eq_nil_iff.mpr ⟨guardsInOps_nil yes hyes, guardsInOps_nil no hno⟩
  | synchronized lock body => exact guardsInOps_nil body h
  | _ => rfl

/-- Where there is no machine there is no guard. -/
theorem guardsInOps_nil {place : MachineId} {outer : SymbolId} {exit : Option SymbolId}
    {number : Nat} (ops : List Op) (h : machinesInOps ops = []) :
    guardsInOps place outer exit number ops = [] := by
  cases ops with
  | nil => rfl
  | cons op ops =>
    obtain ⟨hop, hops⟩ := append_eq_nil_iff.mp h
    exact append_eq_nil_iff.mpr ⟨guardsInOp_nil op hop, guardsInOps_nil ops hops⟩

end

theorem guardsInStates_eq (place : MachineId) (outer : SymbolId) (exit : Option SymbolId)
    (states : List MachineState) :
    guardsInStates place outer exit states =
      states.flatMap fun s => guardsInOps place outer exit s.id.number s.ops := by
  induction states with
  | nil => rfl
  | cons state states ih =>
    obtain ⟨id, ops⟩ := state
    rw [guardsInStates, ih, flatMap_cons]
    rfl

theorem mem_guardsInStates {place : MachineId} {outer : SymbolId} {exit : Option SymbolId}
    {g : Guard} :
    g ∈ guardsInStates place outer exit states ↔
      ∃ (i : Nat) (s : MachineState), states[i]? = some s ∧
      g ∈ guardsInOps place outer exit s.id.number s.ops := by
  rw [guardsInStates_eq, mem_flatMap]
  constructor
  · rintro ⟨s, hs, hg⟩
    obtain ⟨i, hi⟩ := mem_iff_getElem?.mp hs
    exact ⟨i, s, hi, hg⟩
  · rintro ⟨i, s, hs, hg⟩
    exact ⟨s, mem_of_getElem? hs, hg⟩

namespace Lowering

namespace Plan

variable {Γ : Plan} {p : Procedure} {settings : Settings} {cls : GeneratorClass}

/-- The guards in the state of a guard: this one, and those in the machine that it runs. -/
theorem guardsInOps_site (Γ : Plan) (G : Site) :
    guardsInOps G.outer (Γ.selectorOf G.outer) (Γ.exitOf G.outer) (G.place + 1)
    [.guarded G.machine G.fields, .jump G.finalTag] =
    Γ.guard G :: guardsInStates G.id G.selector (some G.fields.pendingJump) G.machine.states := by
  rw [guard, Site.id, Site.selector]
  obtain ⟨id, selector, states⟩ := G.machine
  simp [guardsInOps, guardsInOp, Machine.guards, jumpTag, Machine.id, Machine.selector,
    Machine.states]

namespace Governs

variable (h : Γ.Governs p settings cls)
include h

variable {m : MachineId} {G : Site}

/-- The machine of a number. -/
theorem machine_of (hΓ : Γ.Sound) (hm : Γ.IsMachine m) :
    ∃ M ∈ cls.advance.machines, M.id = m ∧ M.selector = Γ.selectorOf m := by
  rcases hm with rfl | ⟨G, hG, rfl⟩
  · exact ⟨_, h.machines.mem_iff.mpr mem_cons_self, h.root, by rw [hΓ.selectorOf_root, h.selector]⟩
  · exact ⟨_, h.mem_machines hG, rfl, by rw [hΓ.selectorOf_id hG]; rfl⟩

theorem machinesInStates_nodup {M : Machine} (hM : M ∈ cls.advance.machines) :
    (machinesInStates M.states).Nodup := by
  have hsplit : M.machines = M :: machinesInStates M.states := by
    obtain ⟨id, selector, states⟩ := M
    rfl
  have hnodup := (List.Nodup.of_map _ h.wellFormed.ids).sublist (cls.advance.machines_sublist M hM)
  rw [hsplit] at hnodup
  exact hnodup.of_cons

/-- The states of a guard and of its final code. -/
theorem states_of_site (hΓ : Γ.Sound) (hG : G ∈ Γ.sites) :
    ∃ M ∈ cls.advance.machines, M.id = G.outer ∧ M.selector = Γ.selectorOf G.outer ∧
      (∀ place, Γ.Stands G.outer place (.guard G.id G.finals) →
        M.states[place]? = some (.mk ⟨place + 1⟩ [.guarded G.machine G.fields, .jump G.finalTag])) ∧
      M.states[G.place + 1]? = some (.mk ⟨G.place + 2⟩ G.final) := by
  have hlies := hΓ.lies G hG
  obtain ⟨M, hM, hid, hselector⟩ := h.machine_of hΓ hlies.guard.isMachine
  obtain ⟨hcode, zones, htiles, hzones⟩ := h.tiled hM
  rw [hid] at htiles hzones
  have hstate : ∀ {place z}, Γ.Stands G.outer place z →
      ∃ ops, M.states[place]? = some (.mk ⟨place + 1⟩ ops) ∧ Γ.LaidAt G.outer z ops := by
    intro place z hstands
    have hz := hzones place _ hstands
    have hlt : place < M.states.length := htiles.length ▸ (List.getElem?_eq_some_iff.mp hz).1
    obtain ⟨⟨id, ops⟩, hs⟩ : ∃ s, M.states[place]? = some s := ⟨_, getElem?_eq_getElem hlt⟩
    have hlaid : Γ.LaidAt G.outer z ops := htiles.laid place _ _ hz hs
    obtain rfl : id = ⟨place + 1⟩ := id_of_code hcode hs
    exact ⟨ops, hs, hlaid⟩
  refine ⟨M, hM, hid, hselector, fun place hstands => ?_, ?_⟩
  · obtain ⟨ops, hs, hlaid⟩ := hstate hstands
    generalize hz : Zone.guard G.id G.finals = z, G.outer = m at hlaid
    cases hlaid with
    | guard hG' =>
      obtain rfl := h.unique hG hG' (Zone.guard.inj hz).1
      exact hs
    | _ => cases hz
  · obtain ⟨ops, hs, hlaid⟩ := hstate hlies.final
    generalize hz : Zone.final G.id G.finals = z, G.outer = m at hlaid
    cases hlaid with
    | final hG' =>
      obtain rfl := h.unique hG hG' (Zone.final.inj hz).1
      exact hs
    | _ => cases hz

/-- A guard stands in one state. -/
theorem place_eq (hΓ : Γ.Sound) (hG : G ∈ Γ.sites) {place : Nat}
    (hstands : Γ.Stands G.outer place (.guard G.id G.finals)) : place = G.place := by
  obtain ⟨M, hM, -, -, hstates, -⟩ := h.states_of_site hΓ hG
  have hmem : G.machine ∈ machinesInOps [.guarded G.machine G.fields, .jump G.finalTag] :=
    mem_append_left _ G.machine.mem_machines_self
  exact place_unique (h.machinesInStates_nodup hM) (hstates place hstands)
    (hstates _ (hΓ.lies G hG).guard) hmem hmem

theorem guards_laid (hΓ : Γ.Sound) {z : Zone} {ops : List Op} (hlaid : Γ.LaidAt m z ops) :
    ∀ place, Γ.Stands m place z → ∀ g ∈ guardsInOps m (Γ.selectorOf m) (Γ.exitOf m) (place + 1) ops,
      ∃ G ∈ Γ.sites, g = Γ.guard G := by
  have hnone : ∀ {m place ops}, machinesInOps ops = [] →
      ∀ g ∈ guardsInOps m (Γ.selectorOf m) (Γ.exitOf m) (place + 1) ops, ∃ G ∈ Γ.sites,
      g = Γ.guard G := by
    intro m place ops hops g hg
    rw [guardsInOps_nil ops hops] at hg
    cases hg
  induction hlaid with
  | code hops | poll hops | final _ hops => exact fun _ _ => hnone hops.no_machines
  | first _ _ hops =>
    refine fun _ _ => hnone ?_
    rw [machinesInOps_append, machinesInOps_initOps, hops.no_machines]
    rfl
  | @guard G hG hlength hstates ih =>
    intro place hstands g hg
    rw [h.place_eq hΓ hG hstands, Γ.guardsInOps_site] at hg
    rcases mem_cons.mp hg with rfl | hg
    · exact ⟨G, hG, rfl⟩
    · obtain ⟨i, s, hs, hg⟩ := mem_guardsInStates.mp hg
      have hlt : i < G.zones.length := hlength ▸ (List.getElem?_eq_some_iff.mp hs).1
      have hz := getElem?_eq_getElem hlt
      refine ih i _ s hz hs i (.inr ⟨G, hG, rfl, hz⟩) g ?_
      rw [hΓ.selectorOf_id hG, hΓ.exitOf_id hG]
      rwa [id_of_code (h.regular G hG).code hs] at hg

theorem guards_eq :
    cls.guards = guardsInStates .root cls.advance.selector none cls.advance.states := by
  rw [GeneratorClass.guards, ← h.root]
  obtain ⟨id, selector, states⟩ := cls.advance
  rfl

/-- **The guards of a class are those of its plan.** -/
theorem guards (hΓ : Γ.Sound) {g : Guard} (hg : g ∈ cls.guards) : ∃ G ∈ Γ.sites, g = Γ.guard G := by
  rw [h.guards_eq] at hg
  obtain ⟨i, s, hs, hg⟩ := mem_guardsInStates.mp hg
  have hlt : i < Γ.zones.length := h.tiles.length ▸ (List.getElem?_eq_some_iff.mp hs).1
  have hz := getElem?_eq_getElem hlt
  refine h.guards_laid hΓ (h.tiles.laid i _ s hz hs) i (.inl ⟨rfl, hz⟩) g ?_
  rw [hΓ.selectorOf_root, hΓ.exitOf_root, h.selector]
  rwa [id_of_code (h.root ▸ h.code) hs] at hg

/-- The guards in a machine are guards of the class. By induction on its number: it is the root
machine, or the guard that runs it stands in a machine of a smaller one. -/
theorem machine_guards (hΓ : Γ.Sound) (n : Nat) : ∀ M ∈ cls.advance.machines, M.id.number = n →
    ∀ g ∈ guardsInStates M.id (Γ.selectorOf M.id) (Γ.exitOf M.id) M.states, g ∈ cls.guards := by
  induction n using Nat.strongRecOn with
  | ind n ih =>
    intro M hM hn g hg
    rcases mem_cons.mp (h.machines.mem_iff.mp hM) with rfl | hM'
    · rw [h.root, hΓ.selectorOf_root, hΓ.exitOf_root, h.selector] at hg
      rwa [h.guards_eq]
    · obtain ⟨G, hG, rfl⟩ := mem_map.mp hM'
      obtain ⟨M', hM', hid, -, hstates, -⟩ := h.states_of_site hΓ hG
      have hlt : M'.id.number < n := hn ▸ hid ▸ (hΓ.lies G hG).outer_lt
      refine ih _ hlt M' hM' rfl g
        (mem_guardsInStates.mpr ⟨_, _, hstates _ (hΓ.lies G hG).guard, ?_⟩)
      rw [show G.machine.id = G.id from rfl, hΓ.selectorOf_id hG, hΓ.exitOf_id hG] at hg
      rw [hid]
      show g ∈ guardsInOps G.outer (Γ.selectorOf G.outer) (Γ.exitOf G.outer) (G.place + 1)
        [.guarded G.machine G.fields, .jump G.finalTag]
      rw [Γ.guardsInOps_site]
      exact mem_cons_of_mem _ hg

theorem mem_guards (hΓ : Γ.Sound) (hG : G ∈ Γ.sites) : Γ.guard G ∈ cls.guards := by
  obtain ⟨M, hM, hid, -, hstates, -⟩ := h.states_of_site hΓ hG
  refine h.machine_guards hΓ _ M hM rfl _
    (mem_guardsInStates.mpr ⟨_, _, hstates _ (hΓ.lies G hG).guard, ?_⟩)
  rw [hid]
  show _ ∈ guardsInOps G.outer (Γ.selectorOf G.outer) (Γ.exitOf G.outer) (G.place + 1)
    [.guarded G.machine G.fields, .jump G.finalTag]
  rw [Γ.guardsInOps_site]
  exact mem_cons_self

/-- **A guard lowers the try that it is made of.** -/
theorem guard_lowers (hΓ : Γ.Sound) (hG : G ∈ Γ.sites) {t : Stmt} (ht : G.Serves t) :
    (Γ.guard G).Lowers cls t := by
  have hlies := hΓ.lies G hG
  cases ht with
  | made hxs hsize hinner hmachine hknown hfinal hops =>
    obtain ⟨M, hM, hid, hselector, -, hstate⟩ := h.states_of_site hΓ hG
    have hhandlers := hinner.guarded_lower hsize (hknown ▸ hlies.known) G.id G.selector
    rw [← hmachine, h.tags] at hhandlers
    refine .mk hxs ⟨_, _, _, _, hinner, hmachine⟩ hhandlers
      ⟨h.tags ▸ hlies.final_target, M, hM, hid, hselector, ?_⟩
    exact ⟨_, mem_of_getElem? hstate, rfl, _, _, _, _, hfinal, hops⟩

end Governs

end Plan

end Lowering

end Resumable
