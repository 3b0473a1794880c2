import Resumable.Proofs.Governed

/-!
# Machines that hang together

What the machines of a class must be like so that dispatch can do its work.

* `Machine.Owns` says that a tag belongs to a machine and stands for one of its states;
* `Machine.WellFormed` and `GeneratorClass.WellFormed` say that states are numbered in order, that
  control never passes the end of a state, and that all tags belong where they are used;
* `Plan.Governs.wellFormed`: every class that lowering gives is well formed.
-/

namespace Resumable

open List

/-! ## Tags and guards in ops -/

mutual

/-- The tags that an op goes to in its own machine. -/
def Op.tags : Op → List Tag
  | .jump tag => [tag]
  | .setState tag => [tag]
  | .switch _ arms => arms.map SwitchArm.target
  | .cond _ yes no => tagsInOps yes ++ tagsInOps no
  | .synchronized _ body => tagsInOps body
  | _ => []

/-- The tags that ops go to in their own machine. -/
def tagsInOps : List Op → List Tag
  | [] => []
  | op :: ops => op.tags ++ tagsInOps ops

end

mutual

/-- The machines that an op runs under guards, with the fields of the guards. -/
def Op.nested : Op → List (Machine × GuardFields)
  | .guarded machine fields => [(machine, fields)]
  | .cond _ yes no => nestedInOps yes ++ nestedInOps no
  | .synchronized _ body => nestedInOps body
  | _ => []

/-- The machines that ops run under guards, with the fields of the guards. -/
def nestedInOps : List Op → List (Machine × GuardFields)
  | [] => []
  | op :: ops => op.nested ++ nestedInOps ops

end

/-! ## Well-formed machines -/

namespace Machine

/-- The tag belongs to the machine and stands for one of its states. -/
def Owns (m : Machine) (tags : TagTable) (tag : Tag) : Prop :=
  tags.owner tag = m.id ∧ ∃ s ∈ m.states, tags.target? tag = some s.id

/-- The machine hangs together. -/
structure WellFormed (table : TagTable) (m : Machine) : Prop where
  /-- the states are numbered 1, 2, 3 and so on -/
  numbered : m.states.map MachineState.id = (List.range' 1 m.states.length).map StateId.mk
  /-- a state is found by its number -/
  found : ∀ s ∈ m.states, m.state? s.id = some s
  /-- every state has ops, and control never passes the last one -/
  ends : ∀ s ∈ m.states, s.ops ≠ [] ∧ endsTerminal s.ops
  /-- ops go to states of the machine -/
  tags : ∀ s ∈ m.states, ∀ tag ∈ tagsInOps s.ops, m.Owns table tag
  /-- handlers start at states of the machine that their guard runs -/
  handlers : ∀ s ∈ m.states, ∀ g ∈ nestedInOps s.ops, ∀ h ∈ g.2.handlers, g.1.Owns table h.entry

end Machine

/-- The machines of the class hang together. -/
structure GeneratorClass.WellFormed (cls : GeneratorClass) : Prop where
  /-- no two machines have the same number -/
  ids : (cls.advance.machines.map Machine.id).Nodup
  /-- no two machines have the same selector -/
  selectors : (cls.advance.machines.map Machine.selector).Nodup
  machines : ∀ m ∈ cls.advance.machines, m.WellFormed cls.tags

namespace Lowering

/-! ## Numbers of states -/

section Numbered

variable {m : Machine} (h : ∃ c : Code, m = c.machine m.id m.selector)
include h

/-- The state at a place has the next number. -/
theorem id_of_code {place : Nat} {s : MachineState} (hs : m.states[place]? = some s) :
    s.id = ⟨place + 1⟩ := by
  obtain ⟨c, hc⟩ := h
  have hstates : m.states = numbered 1 (c.ops :: c.states) := congrArg Machine.states hc
  rw [hstates, getElem?_numbered] at hs
  obtain ⟨ops, -, rfl⟩ := Option.map_eq_some_iff.mp hs
  rw [Nat.add_comm]
  rfl

theorem ids_of_code : m.states.map MachineState.id =
    (List.range' 1 m.states.length).map StateId.mk := by
  refine ext_getElem? fun place => ?_
  rw [getElem?_map, getElem?_map]
  by_cases hplace : place < m.states.length
  · have hs := getElem?_eq_getElem hplace
    rw [hs, getElem?_range' hplace, Option.map_some, Option.map_some, id_of_code h hs, Nat.one_mul,
      Nat.add_comm]
  · have hle := Nat.le_of_not_lt hplace
    rw [getElem?_eq_none hle, getElem?_eq_none (by rw [length_range']; exact hle)]
    rfl

theorem state?_of_code {s : MachineState} (hs : s ∈ m.states) : m.state? s.id = some s := by
  obtain ⟨place, hplace⟩ := mem_iff_getElem?.mp hs
  rw [id_of_code h hplace]
  exact hplace

end Numbered

/-! ## Tags in laid out ops -/

theorem tagsInOps_append (a b : List Op) : tagsInOps (a ++ b) = tagsInOps a ++ tagsInOps b := by
  induction a with
  | nil => rfl
  | cons op ops ih => simp [tagsInOps, ih]

theorem tagsInOps_clears (xs : List SymbolId) : tagsInOps (xs.map Op.clear) = [] := by
  induction xs with
  | nil => rfl
  | cons x xs ih => exact ih

theorem tagsInOps_initOps (rs : List (SymbolId × Option Expr)) : tagsInOps (initOps rs) = [] := by
  induction rs with
  | nil => rfl
  | cons r rs ih =>
    obtain ⟨x, _ | e⟩ := r
    · exact ih
    · exact ih

mutual

/-- The machine of every guard in an op is among the machines in it. -/
theorem machines_of_nested (op : Op) : ∀ g ∈ op.nested, g.1 ∈ machinesInOp op := by
  intro g hg
  cases op with
  | guarded machine =>
    cases mem_singleton.mp hg
    obtain ⟨id, selector, states⟩ := machine
    exact mem_cons_self
  | cond test yes no =>
    exact mem_append.mpr ((mem_append.mp hg).imp (machines_of_nestedInOps yes g)
      (machines_of_nestedInOps no g))
  | synchronized lock body => exact machines_of_nestedInOps body g hg
  | _ => cases hg

theorem machines_of_nestedInOps (ops : List Op) :
    ∀ g ∈ nestedInOps ops, g.1 ∈ machinesInOps ops := by
  intro g hg
  cases ops with
  | nil => cases hg
  | cons op ops =>
    exact mem_append.mpr ((mem_append.mp hg).imp (machines_of_nested op g)
      (machines_of_nestedInOps ops g))

end

namespace Plan

variable {Γ : Plan} {m : MachineId} {finals : List MachineId}

/-- The tag stands for a state of the machine. -/
def Reaches (Γ : Plan) (m : MachineId) (tag : Tag) : Prop :=
  ∃ place z, Γ.tags.target? tag = some ⟨place + 1⟩ ∧ Γ.tags.owner tag = m ∧ Γ.Stands m place z

theorem Leads.reaches {tag : Tag} (h : Γ.Leads m finals tag) : Γ.Reaches m tag := by
  obtain ⟨place, finals', htarget, howner, hstands, -⟩ := h
  exact ⟨place, _, htarget, howner, hstands⟩

theorem Route.reaches {tag : Tag} {ops : List Op} (h : Γ.Route m finals tag ops) :
    ∀ t ∈ tagsInOps ops, Γ.Reaches m t := by
  intro t ht
  cases h with
  | within _ htag =>
    rw [tagsInOps_append, tagsInOps_clears] at ht
    cases mem_singleton.mp ht
    exact htag.reaches
  | finish | leave =>
    rw [tagsInOps_append, tagsInOps_clears] at ht
    cases ht

theorem Routes.reaches {field : SymbolId} {tags : List Tag} {ops : List Op}
    (h : Γ.Routes m finals field tags ops) : ∀ t ∈ tagsInOps ops, Γ.Reaches m t := by
  induction h with
  | nil =>
    intro t ht
    cases ht
  | cons _ hroute _ ih =>
    intro t ht
    rcases mem_append.mp ht with ht | ht
    · exact hroute.reaches t (by simpa [Op.tags, tagsInOps] using ht)
    · exact ih t ht

/-- Laid out ops go to states of their machine. -/
theorem Laid.reaches (hlies : ∀ G ∈ Γ.sites, Γ.Lies G) {ops : List Op} (h : Γ.Laid m finals ops) :
    ∀ t ∈ tagsInOps ops, Γ.Reaches m t := by
  induction h with
  | nil =>
    intro t ht
    cases ht
  | plain _ _ ih | assign _ _ _ ih | clear _ _ ih | finish _ ih => exact ih
  | emit htag _ _ ih =>
    intro t ht
    rcases mem_cons.mp ht with rfl | ht
    · exact htag.leads.reaches
    · exact ih t ht
  | jump htag _ ih =>
    intro t ht
    rcases mem_cons.mp ht with rfl | ht
    · exact htag.reaches
    · exact ih t ht
  | cond _ _ _ _ ihYes ihNo ih =>
    intro t ht
    simp only [tagsInOps, Op.tags, mem_append] at ht
    rcases ht with (ht | ht) | ht
    · exact ihYes t ht
    · exact ihNo t ht
    · exact ih t ht
  | switch _ harms _ ih =>
    intro t ht
    rcases mem_append.mp ht with ht | ht
    · obtain ⟨arm, harm, rfl⟩ := mem_map.mp ht
      exact (harms arm harm).2.reaches
    · exact ih t ht
  | synchronized _ _ _ ihBody ih =>
    intro t ht
    exact (mem_append.mp ht).elim (ihBody t) (ih t)
  | route hroute _ ih =>
    intro t ht
    rw [tagsInOps_append] at ht
    exact (mem_append.mp ht).elim (hroute.reaches t) (ih t)
  | @enter G ops hG hm _ _ ih =>
    intro t ht
    have hreset : tagsInOps G.reset = [] := by
      unfold Site.reset
      rw [tagsInOps_append]
      induction G.fields.resources with
      | nil => rfl
      | cons x xs ih => exact ih
    rw [tagsInOps_append, hreset] at ht
    rcases mem_cons.mp ht with rfl | ht
    · have h := hlies G hG
      exact ⟨G.place, _, h.tag_target, h.tag_owner.trans hm, hm ▸ h.guard⟩
    · exact ih t ht
  | settle _ _ _ hroutes hend _ ih =>
    intro t ht
    simp only [cons_append, tagsInOps, Op.tags, tagsInOps_append, nil_append, mem_append,
      mem_cons] at ht
    rcases ht with ht | rfl | ht
    · exact hroutes.reaches t ht
    · exact hend.leads.reaches
    · exact ih t ht

/-- The ops of a state go to states of the same machine. -/
theorem LaidAt.reaches (hlies : ∀ G ∈ Γ.sites, Γ.Lies G) {z : Zone} {ops : List Op}
    (h : Γ.LaidAt m z ops) : ∀ t ∈ tagsInOps ops, Γ.Reaches m t := by
  cases h with
  | code hops | poll hops | final _ hops => exact hops.reaches hlies
  | first _ _ hops =>
    intro t ht
    rw [tagsInOps_append, tagsInOps_initOps] at ht
    exact hops.reaches hlies t ht
  | @guard G hG =>
    intro t ht
    cases mem_singleton.mp ht
    have h := hlies G hG
    exact ⟨G.place + 1, _, h.final_target, h.final_owner, h.final⟩

/-- The guards in a state are those of the plan. -/
theorem LaidAt.guards {z : Zone} {ops : List Op} (h : Γ.LaidAt m z ops) :
    ∀ g ∈ nestedInOps ops, ∃ G ∈ Γ.sites, g = (G.machine, G.fields) := by
  intro g hg
  have hnone : ∀ {ops : List Op}, machinesInOps ops = [] → g ∉ nestedInOps ops := fun hops hg => by
    have hmem := machines_of_nestedInOps _ g hg
    rw [hops] at hmem
    cases hmem
  cases h with
  | code hops | poll hops | final _ hops => exact absurd hg (hnone hops.no_machines)
  | first _ _ hops =>
    refine absurd hg (hnone ?_)
    rw [machinesInOps_append, machinesInOps_initOps, hops.no_machines]
    rfl
  | guard hG => exact ⟨_, hG, mem_singleton.mp hg⟩

end Plan

/-! ## Classes -/

namespace Plan.Governs

variable {Γ : Plan} {p : Procedure} {settings : Settings} {cls : GeneratorClass}
  (h : Γ.Governs p settings cls)
include h

theorem ids_nodup : (Γ.sites.map fun G => G.id.number).Nodup := by
  rw [h.ids]
  exact nodup_range'

theorem unique {G G' : Site} (hG : G ∈ Γ.sites) (hG' : G' ∈ Γ.sites) (hid : G.id = G'.id) :
    G = G' :=
  inj_on_of_nodup_map h.ids_nodup hG hG' (congrArg MachineId.number hid)

theorem not_root {G : Site} (hG : G ∈ Γ.sites) : G.id ≠ .root := by
  intro hroot
  have hmem : G.id.number ∈ List.range' 1 Γ.sites.length := h.ids ▸ mem_map_of_mem hG
  rw [hroot] at hmem
  exact absurd (mem_range'_1.mp hmem).1 (Nat.not_succ_le_zero 0)

theorem mem_machines {G : Site} (hG : G ∈ Γ.sites) : G.machine ∈ cls.advance.machines :=
  h.machines.mem_iff.mpr (mem_cons_of_mem _ (mem_map_of_mem hG))

/-- The states of the machine of a guard are laid out. -/
theorem site_tiles {G : Site} (hG : G ∈ Γ.sites) : Γ.Tiles G.id G.zones G.machine.states := by
  have hmem := h.mem_machines hG
  have hsplit : cls.advance.machines = cls.advance :: machinesInStates cls.advance.states := by
    obtain ⟨id, selector, states⟩ := cls.advance
    rfl
  rw [hsplit] at hmem
  rcases mem_cons.mp hmem with heq | hmem
  · exact absurd ((congrArg Machine.id heq).trans h.root) (h.not_root hG)
  · obtain ⟨state, hstate, hM⟩ := Plan.mem_machinesInStates hmem
    obtain ⟨place, hplace⟩ := mem_iff_getElem?.mp hstate
    have hlt : place < Γ.zones.length := h.tiles.length ▸ (List.getElem?_eq_some_iff.mp hplace).1
    have hlaid := h.tiles.laid place _ state (getElem?_eq_getElem hlt) hplace
    obtain ⟨G', hG', heq, htiles⟩ := hlaid.machines _ hM
    exact h.unique hG' hG (congrArg Machine.id heq) ▸ htiles

/-- Every machine is laid out as the plan says. -/
theorem tiled {M : Machine} (hM : M ∈ cls.advance.machines) :
    (∃ c : Code, M = c.machine M.id M.selector) ∧
      ∃ zones, Γ.Tiles M.id zones M.states ∧ ∀ place z, Γ.Stands M.id place z →
      zones[place]? = some z := by
  rcases mem_cons.mp (h.machines.mem_iff.mp hM) with rfl | hM
  · refine ⟨h.root ▸ h.code, Γ.zones, h.root ▸ h.tiles, fun place z hstands => ?_⟩
    rcases hstands with ⟨-, hz⟩ | ⟨G, hG, hid, -⟩
    · exact hz
    · exact absurd (hid.trans h.root) (h.not_root hG)
  · obtain ⟨G, hG, rfl⟩ := mem_map.mp hM
    refine ⟨(h.regular G hG).code, G.zones, h.site_tiles hG, fun place z hstands => ?_⟩
    rcases hstands with ⟨hroot, -⟩ | ⟨G', hG', hid, hz⟩
    · exact absurd hroot (h.not_root hG)
    · rw [← h.unique hG' hG hid]
      exact hz

/-- A machine owns the tags that stand for its states. -/
theorem owns {M : Machine} (hM : M ∈ cls.advance.machines) {tag : Tag} (htag : Γ.Reaches M.id tag) :
    M.Owns cls.tags tag := by
  obtain ⟨hcode, zones, htiles, hzones⟩ := h.tiled hM
  obtain ⟨place, z, htarget, howner, hstands⟩ := htag
  have hlt : place < M.states.length :=
    htiles.length ▸ (List.getElem?_eq_some_iff.mp (hzones place z hstands)).1
  have hstate := getElem?_eq_getElem hlt
  rw [h.tags] at htarget howner
  exact ⟨howner, _, getElem_mem hlt, (id_of_code hcode hstate) ▸ htarget⟩

theorem machine_wellFormed {M : Machine} (hM : M ∈ cls.advance.machines) :
    M.WellFormed cls.tags := by
  obtain ⟨hcode, zones, htiles, -⟩ := h.tiled hM
  have hlaid : ∀ s ∈ M.states, ∃ z, Γ.LaidAt M.id z s.ops := by
    intro s hs
    obtain ⟨place, hplace⟩ := mem_iff_getElem?.mp hs
    have hlt : place < zones.length := htiles.length ▸ (List.getElem?_eq_some_iff.mp hplace).1
    exact ⟨_, htiles.laid place _ s (getElem?_eq_getElem hlt) hplace⟩
  refine ⟨ids_of_code hcode, fun s => state?_of_code hcode, fun s hs => ⟨?_, h.ended M hM s hs⟩,
    fun s hs tag htag => ?_, fun s hs g hg handler hhandler => ?_⟩
  · intro hnil
    have hends := h.ended M hM s hs
    rw [hnil] at hends
    cases hends
  · obtain ⟨z, hz⟩ := hlaid s hs
    exact h.owns hM (hz.reaches h.lies tag htag)
  · obtain ⟨z, hz⟩ := hlaid s hs
    obtain ⟨G, hG, rfl⟩ := hz.guards g hg
    exact h.owns (h.mem_machines hG) ((h.lies G hG).handlers handler hhandler).2.leads.reaches

/-- **Lowering gives machines that hang together.** -/
theorem wellFormed : cls.WellFormed := by
  refine ⟨?_, ?_, fun M => h.machine_wellFormed⟩
  · rw [(h.machines.map Machine.id).nodup_iff, map_cons, map_map, nodup_cons]
    refine ⟨fun hmem => ?_, ?_⟩
    · obtain ⟨G, hG, hid⟩ := mem_map.mp hmem
      exact h.not_root hG (hid.trans h.root)
    · exact List.Nodup.of_map MachineId.number (by rw [map_map]; exact h.ids_nodup)
  · rw [(h.machines.map Machine.selector).nodup_iff, map_cons, map_map, nodup_cons]
    refine ⟨fun hmem => ?_, ?_⟩
    · obtain ⟨G, hG, hselector⟩ := mem_map.mp hmem
      have hlt := h.after G hG
      rw [h.selector, ← hselector] at hlt
      exact absurd hlt (Nat.lt_irrefl _)
    · refine pairwise_map.mpr (h.spaced.imp fun {G G'} hbefore heq => ?_)
      have hsame : G.selector.index = G'.selector.index := congrArg SymbolId.index heq
      unfold Site.Before at hbefore
      omega

end Plan.Governs

end Lowering

end Resumable
