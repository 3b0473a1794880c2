import Mathlib.Data.List.Nodup
import Mathlib.Data.List.Pairwise
import Resumable.Proofs.Placed
import Resumable.Proofs.Protocol

/-!
# What holds while machines run

A ghost state gives every guard its phase. This module says how phases and variables fit together
while one of the machines runs.

* `Plan.guard` is a guard of a plan as the protocol sees it, and `Plan.Step` is a step of all guards
  at once;
* `Plan.Facts` says what the fields of a guard hold in a phase, and `Plan.Rest` what the selector of
  a machine holds that does not run right now;
* `Plan.Steady` is the invariant while a machine runs, `Plan.Resting` the one between two calls.
-/

namespace Resumable

open List

open Function (update update_of_ne update_self)

namespace Phase

/-- The machine of the guard runs, or is suspended. -/
def Active : Phase → Prop
  | body _ => True
  | handling => True
  | parked _ _ => True
  | _ => False

/-- Much may happen before the guard itself does something. -/
def Loose (φ : Phase) : Prop := φ.Inside ∨ φ.Outside

variable {φ : Phase}

theorem Inside.active (h : φ.Inside) : φ.Active := by
  cases φ <;> first | exact trivial | exact h.elim

/-- Between two steps of a guard that is active, control is in its machine. -/
theorem Active.inside (h : φ.Active) (hloose : φ.Loose) : φ.Inside := by
  cases φ with
  | body | handling => trivial
  | parked => exact hloose.elim id id
  | _ => exact h.elim

theorem Active.not_outside (h : φ.Active) : ¬ φ.Outside := by
  cases φ <;> first | exact h.elim | exact id

theorem Outside.not_active (h : φ.Outside) : ¬ φ.Active := fun hactive => hactive.not_outside h

/-- Control is in the final code of the guard. -/
def IsFinal : Phase → Prop
  | final _ _ => True
  | _ => False

theorem IsFinal.outside (h : φ.IsFinal) : φ.Outside := by
  cases φ <;> first | exact trivial | exact h.elim

/-- Control is on its way to the final code of the guard. -/
def IsArriving : Phase → Prop
  | arriving _ _ => True
  | _ => False

theorem IsArriving.not_active (h : φ.IsArriving) : ¬ φ.Active := by
  cases φ <;> first | exact h.elim | exact id

/-- The phases are the same, or the guard is active in both. -/
def Alike (φ φ' : Phase) : Prop := φ' = φ ∨ φ.Active ∧ φ'.Active

theorem Alike.of_not_active {φ' : Phase} (h : φ.Alike φ') (hnot : ¬ φ.Active) : φ' = φ :=
  h.resolve_right fun hactive => hnot hactive.1

end Phase

/-- The event says what a machine does, which is named by its selector. -/
def Event.Of (selector : SymbolId) : Event → Prop
  | .visit s _ => s = selector
  | .goto s _ => s = selector
  | .resumeAt s _ => s = selector
  | .finish s => s = selector
  | .stopped s _ => s = selector
  | _ => False

namespace Guard

variable {g : Guard} {tags : TagTable} {keeps : SymbolId → Prop} {φ : Phase} {ev : Event}

/-- The event has nothing to do with the guard or the machine around it. -/
structure Foreign (g : Guard) (keeps : SymbolId → Prop) (ev : Event) : Prop where
  mine : ¬ g.Mine keeps ev
  around : ¬ g.Around ev
  enters : ¬ g.Enters ev

theorem Foreign.step (h : g.Foreign keeps ev) (hφ : φ.Loose) : g.Step tags keeps φ ev φ :=
  hφ.elim (fun hφ => .inside hφ h.mine h.around) fun hφ => .elsewhere hφ h.mine h.enters

end Guard

namespace Event

variable {g : Guard} {keeps : SymbolId → Prop} {selector : SymbolId} {ev : Event}

/-- What a machine does is for the guard that runs it. -/
theorem Of.mine (h : ev.Of selector) (hmine : g.Mine keeps ev) : selector = g.own := by
  cases ev <;> first | exact h.elim | exact (h : _ = selector) ▸ hmine

theorem Of.around (h : ev.Of selector) (haround : g.Around ev) : selector = g.outer := by
  cases ev <;> first | exact h.elim | exact (h : _ = selector) ▸ haround

/-- A guard is entered by the machine around it. -/
theorem Of.enters (h : ev.Of selector) (henters : g.Enters ev) : selector = g.outer := by
  cases ev <;> first | exact h.elim | exact henters.elim | exact (h : _ = selector) ▸ henters.1

end Event

/-- The tag that waits in a field, or -1. -/
def jumpValue : Option Tag → Value
  | none => .int (-1)
  | some tag => tag.value

namespace Lowering

/-- The phases of all guards, which are named by their machines. -/
abbrev Phases := MachineId → Phase

namespace Plan

variable {G' : Site} {x : SymbolId}

/-! ## Machines and guards -/

variable (Γ : Plan)

/-- The guard that runs a machine. -/
def site? (m : MachineId) : Option Site := Γ.sites.find? fun G => G.id = m

/-- The selector of a machine. -/
def selectorOf (m : MachineId) : SymbolId := ((Γ.site? m).map Site.selector).getD Γ.selector

/-- The field in which a machine leaves tags of other machines. -/
def exitOf (m : MachineId) : Option SymbolId := (Γ.site? m).map fun G => G.fields.pendingJump

/-- A guard as the protocol sees it. -/
def guard (G : Site) : Guard where
  place := G.outer
  outer := Γ.selectorOf G.outer
  exit := Γ.exitOf G.outer
  number := G.place + 1
  finalTag := G.finalTag
  machine := G.machine
  fields := G.fields

/-- An event fits into the protocols of all guards, and no machine is at fault. -/
structure Step (ψ : Phases) (ev : Event) (ψ' : Phases) : Prop where
  not_broke : ∀ f, ev ≠ .broke f
  not_passed : ∀ selector number, ev ≠ .passed selector number
  guards : ∀ G ∈ Γ.sites, (Γ.guard G).Step Γ.tags Γ.kept (ψ G.id) ev (ψ' G.id)

/-- The plan makes sense: guards have variables of their own, and numbers fit into fields. -/
structure Sound : Prop where
  lies : ∀ G ∈ Γ.sites, Γ.Lies G
  unique : ∀ G ∈ Γ.sites, ∀ G' ∈ Γ.sites, G.id = G'.id → G = G'
  not_root : ∀ G ∈ Γ.sites, G.id ≠ .root
  regular : ∀ G ∈ Γ.sites, G.Regular
  steers : Γ.symbols.Steers Γ.selector
  after : ∀ G ∈ Γ.sites, Γ.selector.index < G.selector.index
  spaced : Γ.sites.Pairwise Site.Before
  resources : (Γ.sites.flatMap fun G => G.fields.resources).Nodup
  ended : ∀ G ∈ Γ.sites, ∀ s ∈ G.machine.states, endsTerminal s.ops
  tags_lt : Γ.tags.size < Text.int64Bound
  places_lt : ∀ m place z, Γ.Stands m place z → place + 1 < Text.int64Bound

/-- The number is that of a machine of the plan. -/
def IsMachine (m : MachineId) : Prop := m = .root ∨ ∃ G ∈ Γ.sites, G.id = m

variable {Γ} {m m' : MachineId} {place : Nat} {z z' : Zone}

theorem Stands.isMachine (h : Γ.Stands m place z) : Γ.IsMachine m :=
  h.imp And.left fun ⟨G, hG, hid, _⟩ => ⟨G, hG, hid⟩

namespace Sound

variable (hΓ : Γ.Sound) {G G' : Site}
include hΓ

/-- A place has one zone. -/
theorem stands_unique (h : Γ.Stands m place z) (h' : Γ.Stands m place z') : z = z' := by
  rcases h with ⟨rfl, hz⟩ | ⟨G, hG, rfl, hz⟩
  · rcases h' with ⟨-, hz'⟩ | ⟨G', hG', hid, -⟩
    · exact Option.some.inj (hz.symm.trans hz')
    · exact absurd hid (hΓ.not_root G' hG')
  · rcases h' with ⟨hid, -⟩ | ⟨G', hG', hid, hz'⟩
    · exact absurd hid (hΓ.not_root G hG)
    · rw [hΓ.unique G' hG' G hG hid] at hz'
      exact Option.some.inj (hz.symm.trans hz')

theorem site?_id (hG : G ∈ Γ.sites) : Γ.site? G.id = some G := by
  cases hfind : Γ.site? G.id with
  | none => exact absurd (decide_eq_true rfl) (find?_eq_none.mp hfind G hG)
  | some G' =>
    rw [hΓ.unique G' (mem_of_find?_eq_some hfind) G hG (of_decide_eq_true (find?_some hfind :))]

theorem site?_root : Γ.site? .root = none :=
  find?_eq_none.mpr fun G hG h => hΓ.not_root G hG (of_decide_eq_true h)

@[simp] theorem selectorOf_id (hG : G ∈ Γ.sites) : Γ.selectorOf G.id = G.selector := by
  rw [selectorOf, hΓ.site?_id hG]
  rfl

@[simp] theorem selectorOf_root : Γ.selectorOf .root = Γ.selector := by
  rw [selectorOf, hΓ.site?_root]
  rfl

theorem exitOf_id (hG : G ∈ Γ.sites) : Γ.exitOf G.id = some G.fields.pendingJump := by
  rw [exitOf, hΓ.site?_id hG]
  rfl

theorem exitOf_root : Γ.exitOf .root = none := by
  rw [exitOf, hΓ.site?_root]
  rfl

section

variable (hG : G ∈ Γ.sites)
include hG

theorem outer_ne : G.outer ≠ G.id := fun heq =>
  absurd (congrArg MachineId.number heq ▸ (hΓ.lies G hG).outer_lt) (Nat.lt_irrefl _)

theorem not_mem_finals : G.id ∉ G.finals := fun hmem =>
  absurd ((hΓ.lies G hG).finals_lt _ hmem) (Nat.lt_irrefl _)

theorem outer_isMachine : Γ.IsMachine G.outer := (hΓ.lies G hG).guard.isMachine

/-! ### Variables of guards -/

/-- Two guards have their fields far apart. -/
theorem apart (hG' : G' ∈ Γ.sites) (hne : G ≠ G') :
    G.selector.index + 4 ≤ G'.selector.index ∨ G'.selector.index + 4 ≤ G.selector.index := by
  have hsymm : Std.Symm fun a b : Site => a.Before b ∨ b.Before a := ⟨fun _ _ => Or.symm⟩
  have hpairwise : Γ.sites.Pairwise fun a b => a.Before b ∨ b.Before a := hΓ.spaced.imp .inl
  exact hpairwise.forall hG hG' hne

/-- The fields that steer a guard have numbers in a row. -/
theorem mem_steering : x ∈ G.steering ↔ G.selector.index ≤ x.index ∧
    x.index < G.selector.index + 4 := by
  have hregular := hΓ.regular G hG
  obtain ⟨i⟩ := x
  have hselector : G.selector = ⟨G.selector.index⟩ := rfl
  rw [Site.steering, hregular.inHandler, hregular.pending, hregular.pendingJump, hselector]
  simp only [mem_cons, not_mem_nil, or_false, SymbolId.mk.injEq]
  omega

/-- A field steers one guard. -/
theorem steering_inj (hG' : G' ∈ Γ.sites) (hx : x ∈ G.steering) (hx' : x ∈ G'.steering) :
    G = G' := by
  by_contra hne
  have hapart := hΓ.apart hG hG' hne
  rw [hΓ.mem_steering hG] at hx
  rw [hΓ.mem_steering hG'] at hx'
  omega

theorem selector_not_mem_steering : Γ.selector ∉ G.steering := fun hmem =>
  absurd (hΓ.after G hG) (Nat.not_lt_of_le ((hΓ.mem_steering hG).mp hmem).1)

end

theorem selectorOf_mem_steering (hm : Γ.IsMachine m) (hG : G ∈ Γ.sites)
    (h : Γ.selectorOf m ∈ G.steering) : m = G.id := by
  rcases hm with rfl | ⟨G', hG', rfl⟩
  · rw [hΓ.selectorOf_root] at h
    exact absurd h (hΓ.selector_not_mem_steering hG)
  · rw [hΓ.selectorOf_id hG'] at h
    exact congrArg Site.id (hΓ.steering_inj hG' hG mem_cons_self h)

/-- Machines have selectors of their own. -/
theorem selectorOf_inj (hm : Γ.IsMachine m) (hm' : Γ.IsMachine m')
    (h : Γ.selectorOf m = Γ.selectorOf m') : m = m' := by
  rcases hm' with rfl | ⟨G, hG, rfl⟩
  · rcases hm with rfl | ⟨G, hG, rfl⟩
    · rfl
    · rw [hΓ.selectorOf_id hG, hΓ.selectorOf_root] at h
      exact absurd (h ▸ mem_cons_self) (hΓ.selector_not_mem_steering hG)
  · refine hΓ.selectorOf_mem_steering hm hG ?_
    rw [h, hΓ.selectorOf_id hG]
    exact mem_cons_self

theorem selectorOf_steers (hm : Γ.IsMachine m) : Γ.symbols.Steers (Γ.selectorOf m) := by
  rcases hm with rfl | ⟨G, hG, rfl⟩
  · rw [hΓ.selectorOf_root]
    exact hΓ.steers
  · rw [hΓ.selectorOf_id hG]
    exact (hΓ.lies G hG).steers _ mem_cons_self

/-- A resource belongs to one guard. -/
theorem resource_inj (hG : G ∈ Γ.sites) (hG' : G' ∈ Γ.sites) (hx : x ∈ G.fields.resources)
    (hx' : x ∈ G'.fields.resources) : G = G' := by
  by_contra hne
  have hsymm : Std.Symm fun a b : Site => a.fields.resources.Disjoint b.fields.resources :=
    ⟨fun _ _ h _ hx hx' => h hx' hx⟩
  have hpairwise : Γ.sites.Pairwise fun a b => a.fields.resources.Disjoint b.fields.resources :=
    (nodup_flatMap.mp hΓ.resources).2
  exact hpairwise.forall hG hG' hne hx hx'

end Sound

/-! ## Phases and variables -/

variable (Γ) in
/-- The variable belongs to the guard. -/
def Slot (G : Site) (x : SymbolId) : Prop := x ∈ G.steering ∨ x ∈ G.fields.resources ∧ Γ.kept x

variable (Γ) in
/-- A failure and a tag wait in the fields of the guard. -/
structure Waits (G : Site) (vars : Store) (failure : Option Value) (jump : Option Tag) : Prop where
  pending : vars.get? G.fields.pending = some (failure.getD .null)
  pendingJump : vars.get? G.fields.pendingJump = some (jumpValue jump)
  exits : ∀ tag ∈ jump, tag ∈ G.exits ∧ tag.index < Γ.tags.size

variable (Γ) in
/-- The resources have the values that were seen. -/
def Holding (xs : List SymbolId) (held : SymbolId → Value) (vars : Store) : Prop :=
  ∀ x ∈ xs, Γ.kept x → vars.get? x = some (held x)

variable (Γ) in
/-- What the fields of a guard hold in a phase. -/
def Facts (G : Site) (vars : Store) : Phase → Prop
  | .idle => True
  | .body held => vars.get? G.fields.inHandler = some (.bool false) ∧ Γ.Waits G vars none none ∧
    Γ.Holding G.fields.resources held vars
  | .handling => vars.get? G.fields.inHandler = some (.bool true) ∧ Γ.Waits G vars none none
  | .parked held tag => vars.get? G.fields.inHandler = some (.bool held.isNone) ∧
    Γ.Waits G vars none (some tag) ∧ ∀ held' ∈ held, Γ.Holding G.fields.resources held' vars
  | .closing rest held _ jump => Γ.Waits G vars none jump ∧ Γ.Holding rest held vars ∧
    ∀ x ∈ rest, x ∈ G.fields.resources
  | .failed _ => Γ.Waits G vars none none
  | .leaving failure jump => Γ.Waits G vars failure jump
  | .arriving failure jump => Γ.Waits G vars failure jump
  | .final failure jump => Γ.Waits G vars failure jump
  | .raising _ => True
  | .released jump => Γ.Waits G vars none jump

variable {G : Site} {vars vars' : Store} {φ : Phase} {ψ ψ' : Phases}

/-- Where no tag waits, there is nothing to say of it. -/
theorem exits_none : ∀ tag ∈ (none : Option Tag), tag ∈ G.exits ∧ tag.index < Γ.tags.size :=
  fun tag htag => absurd htag (Option.not_mem_none tag)

theorem Waits.congr {failure : Option Value} {jump : Option Tag} (h : Γ.Waits G vars failure jump)
    (hpending : vars'.get? G.fields.pending = vars.get? G.fields.pending)
    (hpendingJump : vars'.get? G.fields.pendingJump = vars.get? G.fields.pendingJump) :
    Γ.Waits G vars' failure jump :=
  ⟨hpending.trans h.pending, hpendingJump.trans h.pendingJump, h.exits⟩

theorem Holding.congr {xs : List SymbolId} {held : SymbolId → Value} (h : Γ.Holding xs held vars)
    (hsame : ∀ x ∈ xs, Γ.kept x → vars'.get? x = vars.get? x) : Γ.Holding xs held vars' :=
  fun x hx hkept => (hsame x hx hkept).trans (h x hx hkept)

/-- What a phase says of the fields stays true as long as they stay the same. -/
theorem Facts.congr (h : Γ.Facts G vars φ) (hsteering : ∀ x ∈ G.steering,
    x ≠ G.selector → vars'.get? x = vars.get? x)
    (hresources : ∀ x ∈ G.fields.resources, Γ.kept x → vars'.get? x = vars.get? x)
    (hregular : G.Regular) : Γ.Facts G vars' φ := by
  -- the fields stand behind the selector, which may change
  have hne : ∀ {i : Nat}, i ≠ 0 → (⟨G.selector.index + i⟩ : SymbolId) ≠ G.selector :=
    fun hi heq => by
    have hindex := congrArg SymbolId.index heq
    dsimp only at hindex
    omega
  have hinHandler :=
    hsteering G.fields.inHandler (by simp [Site.steering]) (hregular.inHandler ▸ hne (by decide))
  have hpending := hsteering G.fields.pending (by simp [Site.steering])
      (hregular.pending ▸ hne (by decide))
  have hpendingJump :=
    hsteering G.fields.pendingJump (by simp [Site.steering])
      (hregular.pendingJump ▸ hne (by decide))
  cases φ with
  | idle | raising => trivial
  | body => exact ⟨hinHandler.trans h.1, h.2.1.congr hpending hpendingJump, h.2.2.congr hresources⟩
  | handling => exact ⟨hinHandler.trans h.1, h.2.congr hpending hpendingJump⟩
  | parked =>
    exact ⟨hinHandler.trans h.1, h.2.1.congr hpending hpendingJump,
      fun held' hheld => (h.2.2 held' hheld).congr hresources⟩
  | closing =>
    exact ⟨h.1.congr hpending hpendingJump,
      h.2.1.congr fun x hx => hresources x (h.2.2 x hx), h.2.2⟩
  | failed | leaving | arriving | final | released => exact Waits.congr h hpending hpendingJump

/-! ## Control -/

variable (Γ) in
/-- The machine is the root machine or that of a guard that is active. -/
def Alive (ψ : Phases) (m : MachineId) : Prop :=
  Γ.IsMachine m ∧ ∀ G ∈ Γ.sites, G.id = m → (ψ m).Active

variable (Γ) in
/-- The machine has not been left by its own code. -/
def Open (ψ : Phases) (m : MachineId) : Prop := ∀ G ∈ Γ.sites, G.id = m → (ψ m).Inside

variable (Γ) in
/-- Control is outside of all guards in the machine. -/
def Quiet (ψ : Phases) (m : MachineId) : Prop := ∀ G ∈ Γ.sites, G.outer = m → (ψ G.id).Outside

variable (Γ) in
/-- Control is in the final code of guards in the machine. -/
def InFinals (ψ : Phases) (m : MachineId) (finals : List MachineId) : Prop :=
  ∀ g ∈ finals, ∃ G ∈ Γ.sites, G.id = g ∧ G.outer = m ∧ (ψ g).IsFinal

theorem inFinals_nil : Γ.InFinals ψ m [] := nofun

variable (Γ) in
/-- Of the guards in a machine, only one has control, in a certain phase. -/
structure Busy (ψ : Phases) (G : Site) (P : Phase → Prop) : Prop where
  phase : P (ψ G.id)
  others : ∀ G' ∈ Γ.sites, G'.outer = G.outer → G' ≠ G → (ψ G'.id).Outside
  finals : Γ.InFinals ψ G.outer G.finals

variable (Γ) in
/-- What phases are like while a machine is at a place with a zone. -/
def At (ψ : Phases) (m : MachineId) (place : Nat) : Zone → Prop
  | .code finals => Γ.Quiet ψ m ∧ Γ.InFinals ψ m finals
  | .guard site _ =>
    ∃ G ∈ Γ.sites, G.id = site ∧ G.outer = m ∧ G.place = place ∧ Γ.Busy ψ G Phase.Active
  | .final site _ =>
    ∃ G ∈ Γ.sites, G.id = site ∧ G.outer = m ∧ G.place + 1 = place ∧ Γ.Busy ψ G Phase.IsArriving
  | .first => Γ.Quiet ψ m ∧ ∃ held, ψ m = .body held

variable (Γ) in
/-- The selector of the machine holds the state where it goes on. -/
def Rest (ψ : Phases) (vars : Store) (m : MachineId) : Prop :=
  ∃ place z, vars.get? (Γ.selectorOf m) = some (.ofState (place + 1)) ∧ Γ.Stands m place z ∧
    Γ.At ψ m place z

variable (Γ) in
/-- **The invariant while a machine runs.** It says all but what the running machine itself and the
guards in it are about right now. -/
structure Steady (m : MachineId) (ψ : Phases) (vars : Store) : Prop where
  alive : Γ.Alive ψ m
  facts : ∀ G ∈ Γ.sites, Γ.Facts G vars (ψ G.id)
  loose : ∀ G ∈ Γ.sites, G.id ≠ m → G.outer ≠ m → (ψ G.id).Loose
  dead : ∀ G ∈ Γ.sites, ¬ (ψ G.id).Active → Γ.Quiet ψ G.id
  rest : ∀ m', Γ.Alive ψ m' → m' ≠ m → Γ.Rest ψ vars m'

variable (Γ) in
/-- **The invariant between two calls.** Every machine that is alive may be run. -/
structure Resting (ψ : Phases) (vars : Store) : Prop where
  facts : ∀ G ∈ Γ.sites, Γ.Facts G vars (ψ G.id)
  loose : ∀ G ∈ Γ.sites, (ψ G.id).Loose
  dead : ∀ G ∈ Γ.sites, ¬ (ψ G.id).Active → Γ.Quiet ψ G.id
  rest : ∀ m, Γ.Alive ψ m → Γ.Rest ψ vars m

/-! ### Machines that are alive -/

theorem not_free_of_steers (h : Γ.symbols.Steers x) : ¬ Γ.Free x := fun hfree => hfree.1 h

/-- The machine around an active guard is alive. -/
theorem alive_outer (hΓ : Γ.Sound) (hdead : ∀ G ∈ Γ.sites, ¬ (ψ G.id).Active → Γ.Quiet ψ G.id)
    (hG : G ∈ Γ.sites) (hactive : (ψ G.id).Active) : Γ.Alive ψ G.outer := by
  refine ⟨hΓ.outer_isMachine hG, fun G' hG' hid => ?_⟩
  rw [← hid]
  by_contra hnot
  exact hactive.not_outside (hdead G' hG' hnot G hG hid.symm)

/-- The machine around an active guard is at its state. -/
theorem Rest.busy (hG : G ∈ Γ.sites) (hactive : (ψ G.id).Active) (h : Γ.Rest ψ vars G.outer) :
    vars.get? (Γ.selectorOf G.outer) = some (.ofState (G.place + 1)) ∧ Γ.Busy ψ G Phase.Active := by
  obtain ⟨place, z, hselector, -, hat⟩ := h
  cases z with
  | code | first => exact absurd (hat.1 G hG rfl) hactive.not_outside
  | guard =>
    obtain ⟨G', hG', -, houter, rfl, hbusy⟩ := hat
    by_cases heq : G' = G
    · exact heq ▸ ⟨heq ▸ hselector, hbusy⟩
    · exact absurd (hbusy.others G hG houter.symm (Ne.symm heq)) hactive.not_outside
  | final =>
    obtain ⟨G', hG', -, houter, -, hbusy⟩ := hat
    by_cases heq : G' = G
    · exact absurd (heq ▸ hactive) hbusy.phase.not_active
    · exact absurd (hbusy.others G hG houter.symm (Ne.symm heq)) hactive.not_outside

/-- Any machine that is alive may be run next. -/
theorem Resting.steady (h : Γ.Resting ψ vars) (hm : Γ.Alive ψ m) : Γ.Steady m ψ vars where
  alive := hm
  facts := h.facts
  loose := fun G hG _ _ => h.loose G hG
  dead := h.dead
  rest := fun m' hm' _ => h.rest m' hm'

/-- Where the machine is open and the guards in it are loose, all are. -/
theorem Steady.all_loose (h : Γ.Steady m ψ vars) (hopen : Γ.Open ψ m)
    (hloose : ∀ G ∈ Γ.sites, G.outer = m → (ψ G.id).Loose) : ∀ G ∈ Γ.sites, (ψ G.id).Loose := by
  intro G hG
  by_cases hid : G.id = m
  · rw [hid]
    exact .inl (hopen G hG hid)
  · by_cases houter : G.outer = m
    · exact hloose G hG houter
    · exact h.loose G hG hid houter

/-- A machine that rests at a state leaves what holds between two calls. -/
theorem Steady.resting (h : Γ.Steady m ψ vars) (hopen : Γ.Open ψ m) (hrest : Γ.Rest ψ vars m)
    (hloose : ∀ G ∈ Γ.sites, G.outer = m → (ψ G.id).Loose) : Γ.Resting ψ vars where
  facts := h.facts
  loose := h.all_loose hopen hloose
  dead := h.dead
  rest := fun m' hm' => by
    by_cases heq : m' = m
    · exact heq ▸ hrest
    · exact h.rest m' hm' heq

/-! ### Changes of variables -/

theorem Rest.congr (h : Γ.Rest ψ vars m)
    (hselector : vars'.get? (Γ.selectorOf m) = vars.get? (Γ.selectorOf m)) : Γ.Rest ψ vars' m := by
  obtain ⟨place, z, hplace, hstands, hat⟩ := h
  exact ⟨place, z, hselector.trans hplace, hstands, hat⟩

/-- The running machine may change its selector and what any code may store to. -/
theorem Steady.congr (hΓ : Γ.Sound) (h : Γ.Steady m ψ vars)
    (hsame : ∀ x, x ≠ Γ.selectorOf m → ¬ Γ.Free x → vars'.get? x = vars.get? x) :
    Γ.Steady m ψ vars' := by
  have hm := h.alive.1
  refine ⟨h.alive, fun G hG => ?_, h.loose, h.dead, fun m' hm' hne => ?_⟩
  · refine (h.facts G hG).congr (fun x hx hne => ?_) (fun x hx hkept => ?_) (hΓ.regular G hG)
    · refine hsame x (fun heq => hne ?_) (not_free_of_steers ((hΓ.lies G hG).steers x hx))
      have hid := hΓ.selectorOf_mem_steering hm hG (heq ▸ hx)
      rw [heq, hid, hΓ.selectorOf_id hG]
    · refine hsame x (fun heq => ?_) fun hfree => hfree.2 hkept
      exact (hΓ.lies G hG).resources x hx (heq ▸ hΓ.selectorOf_steers hm)
  · refine (h.rest m' hm' hne).congr (hsame _ (fun heq => hne ?_) ?_)
    · exact hΓ.selectorOf_inj hm'.1 hm heq
    · exact not_free_of_steers (hΓ.selectorOf_steers hm'.1)

/-! ### Changes of phases -/

/-- Final code is not left while no phase in the machine changes but among active ones. -/
theorem InFinals.congr {finals : List MachineId} (h : Γ.InFinals ψ m finals)
    (hsame : ∀ G ∈ Γ.sites, G.outer = m → (ψ G.id).Alike (ψ' G.id)) : Γ.InFinals ψ' m finals := by
  intro g hg
  obtain ⟨G, hG, rfl, houter, hfinal⟩ := h g hg
  have heq := (hsame G hG houter).of_not_active hfinal.outside.not_active
  exact ⟨G, hG, rfl, houter, heq ▸ hfinal⟩

theorem Quiet.congr (h : Γ.Quiet ψ m) (hsame : ∀ G ∈ Γ.sites,
    G.outer = m → (ψ G.id).Alike (ψ' G.id)) : Γ.Quiet ψ' m := by
  intro G hG houter
  have houtside := h G hG houter
  exact (hsame G hG houter).of_not_active houtside.not_active ▸ houtside

theorem Busy.congr {P : Phase → Prop} (h : Γ.Busy ψ G P) (hphase : P (ψ' G.id))
    (hsame : ∀ G' ∈ Γ.sites, G'.outer = G.outer → G' ≠ G → (ψ G'.id).Alike (ψ' G'.id))
    (hfinals : Γ.InFinals ψ' G.outer G.finals) : Γ.Busy ψ' G P := by
  refine ⟨hphase, fun G' hG' houter hne => ?_, hfinals⟩
  have houtside := h.others G' hG' houter hne
  exact (hsame G' hG' houter hne).of_not_active houtside.not_active ▸ houtside

/-- A place stays what it is while guards in the machine stay active or as they were. -/
theorem At.congr (h : Γ.At ψ m place z) (hown : ψ' m = ψ m)
    (hsame : ∀ G ∈ Γ.sites, G.outer = m → (ψ G.id).Alike (ψ' G.id)) : Γ.At ψ' m place z := by
  cases z with
  | code => exact ⟨h.1.congr hsame, h.2.congr hsame⟩
  | guard =>
    obtain ⟨G, hG, hid, houter, hplace, hbusy⟩ := h
    have hphase : (ψ' G.id).Active :=
      (hsame G hG houter).elim (fun heq => heq ▸ hbusy.phase) And.right
    exact ⟨G, hG, hid, houter, hplace,
      hbusy.congr hphase (fun G' hG' ho _ => hsame G' hG' (ho.trans houter))
      (hbusy.finals.congr fun G' hG' ho => hsame G' hG' (ho.trans houter))⟩
  | final =>
    obtain ⟨G, hG, hid, houter, hplace, hbusy⟩ := h
    have heq := (hsame G hG houter).of_not_active hbusy.phase.not_active
    exact ⟨G, hG, hid, houter, hplace, hbusy.congr (heq ▸ hbusy.phase)
      (fun G' hG' ho _ => hsame G' hG' (ho.trans houter))
      (hbusy.finals.congr fun G' hG' ho => hsame G' hG' (ho.trans houter))⟩
  | first =>
    obtain ⟨hquiet, held, hheld⟩ := h
    exact ⟨hquiet.congr hsame, held, hown.trans hheld⟩

theorem Sound.id_ne (hΓ : Γ.Sound) (hG : G ∈ Γ.sites) (hG' : G' ∈ Γ.sites) (hne : G' ≠ G) :
    G'.id ≠ G.id := fun hid => hne (hΓ.unique G' hG' G hG hid)

/-- A guard that changes its phase leaves those of others as they are. -/
theorem Sound.update_ne (hΓ : Γ.Sound) (hG : G ∈ Γ.sites) (hG' : G' ∈ Γ.sites) (hne : G' ≠ G) :
    update ψ G.id φ G'.id = ψ G'.id := update_of_ne (hΓ.id_ne hG hG' hne) ..

/-- No variable belongs to two guards. -/
theorem foreign_of_slot (hΓ : Γ.Sound) (hG : G ∈ Γ.sites) (hG' : G' ∈ Γ.sites) (hne : G' ≠ G)
    (hx : Γ.Slot G x) : ¬ Γ.Slot G' x := by
  rintro (hx' | ⟨hx', -⟩)
  · rcases hx with hx | ⟨hx, -⟩
    · exact hne (hΓ.steering_inj hG' hG hx' hx)
    · exact (hΓ.lies G hG).resources x hx ((hΓ.lies G' hG').steers x hx')
  · rcases hx with hx | ⟨hx, -⟩
    · exact (hΓ.lies G' hG').resources x hx' ((hΓ.lies G hG).steers x hx)
    · exact hne (hΓ.resource_inj hG' hG hx' hx)

/-- What the fields of the other guards hold stays the same when a guard changes its own. -/
theorem Facts.of_slots (hΓ : Γ.Sound) (hm : Γ.IsMachine m) (hG : G ∈ Γ.sites) (hG' : G' ∈ Γ.sites)
    (hne : G' ≠ G) (h : Γ.Facts G' vars φ) (hsame : ∀ x, ¬ Γ.Slot G x → x ≠ Γ.selectorOf m →
      ¬ Γ.Free x → vars'.get? x = vars.get? x) :
    Γ.Facts G' vars' φ := by
  refine h.congr (fun x hx hselector => ?_) (fun x hx hkept => ?_) (hΓ.regular G' hG')
  · refine hsame x (foreign_of_slot hΓ hG' hG hne.symm (.inl hx)) (fun heq => hselector ?_)
      (not_free_of_steers ((hΓ.lies G' hG').steers x hx))
    have hid := hΓ.selectorOf_mem_steering hm hG' (heq ▸ hx)
    rw [heq, hid, hΓ.selectorOf_id hG']
  · refine hsame x (foreign_of_slot hΓ hG' hG hne.symm (.inr ⟨hx, hkept⟩)) (fun heq => ?_)
      fun hfree => hfree.2 hkept
    exact (hΓ.lies G' hG').resources x hx (heq ▸ hΓ.selectorOf_steers hm)

theorem Rest.of_slots (hΓ : Γ.Sound) (hm : Γ.IsMachine m) (hm' : Γ.IsMachine m') (hG : G ∈ Γ.sites)
    (hid : m' ≠ G.id) (hne : m' ≠ m) (h : Γ.Rest ψ vars m')
    (hsame : ∀ x, ¬ Γ.Slot G x → x ≠ Γ.selectorOf m → ¬ Γ.Free x → vars'.get? x = vars.get? x) :
    Γ.Rest ψ vars' m' := by
  have hsteers := hΓ.selectorOf_steers hm'
  refine h.congr (hsame _ (fun hslot => ?_) (fun heq => hne ?_) (not_free_of_steers hsteers))
  · rcases hslot with hslot | ⟨hslot, -⟩
    · exact hid (hΓ.selectorOf_mem_steering hm' hG hslot)
    · exact (hΓ.lies G hG).resources _ hslot hsteers
  · exact hΓ.selectorOf_inj hm' hm heq

/-- A guard in the running machine goes to another phase, and changes its own variables. -/
theorem Steady.move (hΓ : Γ.Sound) (h : Γ.Steady m ψ vars) (hG : G ∈ Γ.sites) (houter : G.outer = m)
    (hsame : ∀ x, ¬ Γ.Slot G x → x ≠ Γ.selectorOf m → ¬ Γ.Free x → vars'.get? x = vars.get? x)
    (hfacts : Γ.Facts G vars' φ) (hquiet : ¬ φ.Active → Γ.Quiet ψ G.id)
    (hrest : φ.Active → Γ.Rest (update ψ G.id φ) vars' G.id) :
    Γ.Steady m (update ψ G.id φ) vars' := by
  have hm := h.alive.1
  have hne : m ≠ G.id := houter ▸ hΓ.outer_ne hG
  refine ⟨⟨hm, fun G' hG' hid => ?_⟩, fun G' hG' => ?_, fun G' hG' hid ho => ?_,
    fun G' hG' hnot => ?_,
    fun m' hm' hne' => ?_⟩
  · rw [update_of_ne hne]
    exact h.alive.2 G' hG' hid
  · by_cases heq : G' = G
    · rw [heq, update_self]
      exact hfacts
    · rw [hΓ.update_ne hG hG' heq]
      exact (h.facts G' hG').of_slots hΓ hm hG hG' heq hsame
  · have heq : G' ≠ G := fun heq => ho (heq ▸ houter)
    rw [hΓ.update_ne hG hG' heq]
    exact h.loose G' hG' hid ho
  · by_cases heq : G' = G
    · rw [heq, update_self] at hnot
      refine heq ▸ (hquiet hnot).congr fun G'' hG'' ho => .inl (hΓ.update_ne hG hG'' ?_)
      exact fun heq => hΓ.outer_ne hG (heq ▸ ho)
    · rw [hΓ.update_ne hG hG' heq] at hnot
      refine (h.dead G' hG' hnot).congr fun G'' hG'' ho =>
        .inl (hΓ.update_ne hG hG'' fun heq' => ?_)
      -- the machine that runs is alive, so that it is not that of the guard that is not active
      have hid : G'.id = m := ho.symm.trans (heq' ▸ houter)
      exact hnot (hid ▸ h.alive.2 G' hG' hid)
  · by_cases hid : m' = G.id
    · rw [hid]
      refine hrest ?_
      have hactive := hm'.2 G hG hid.symm
      rwa [hid, update_self] at hactive
    · have hm'' : Γ.Alive ψ m' :=
        ⟨hm'.1, fun G' hG' hid' => update_of_ne hid φ ψ ▸ hm'.2 G' hG' hid'⟩
      obtain ⟨place, z, hselector, hstands, hat⟩ :=
        (h.rest m' hm'' hne').of_slots hΓ hm hm'.1 hG hid hne' hsame
      refine ⟨place, z, hselector, hstands, hat.congr (update_of_ne hid ..)
        fun G' hG' ho => .inl ?_⟩
      exact hΓ.update_ne hG hG' fun heq => hne' (ho.symm.trans (heq ▸ houter))

/-- The guard whose machine runs goes to another phase, and changes its own variables. -/
theorem Steady.own (hΓ : Γ.Sound) (h : Γ.Steady G.id ψ vars) (hG : G ∈ Γ.sites)
    (hsame : ∀ x, ¬ Γ.Slot G x → ¬ Γ.Free x → vars'.get? x = vars.get? x)
    (hfacts : Γ.Facts G vars' φ) (hactive : φ.Active) :
    Γ.Steady G.id (update ψ G.id φ) vars' := by
  have hm := h.alive.1
  have hbefore := h.alive.2 G hG rfl
  have hsame' : ∀ x, ¬ Γ.Slot G x → x ≠ Γ.selectorOf G.id → ¬ Γ.Free x →
      vars'.get? x = vars.get? x :=
    fun x hslot _ => hsame x hslot
  -- for the machines around, the guard is as active as it was
  have halike : ∀ G' : Site, (ψ G'.id).Alike (update ψ G.id φ G'.id) := by
    intro G'
    by_cases hid : G'.id = G.id
    · rw [hid, update_self]
      exact .inr ⟨hbefore, hactive⟩
    · exact .inl (update_of_ne hid ..)
  refine ⟨⟨hm, fun G' hG' hid => ?_⟩, fun G' hG' => ?_, fun G' hG' hid ho => ?_,
    fun G' hG' hnot => ?_,
    fun m' hm' hne => ?_⟩
  · rw [update_self]
    exact hactive
  · by_cases heq : G' = G
    · rw [heq, update_self]
      exact hfacts
    · rw [hΓ.update_ne hG hG' heq]
      exact (h.facts G' hG').of_slots hΓ hm hG hG' heq hsame'
  · rw [update_of_ne hid]
    exact h.loose G' hG' hid ho
  · have hid : G'.id ≠ G.id := fun hid => by
      rw [hid, update_self] at hnot
      exact hnot hactive
    rw [update_of_ne hid] at hnot
    exact (h.dead G' hG' hnot).congr fun G'' _ _ => halike G''
  · have hm'' : Γ.Alive ψ m' :=
      ⟨hm'.1, fun G' hG' hid' => update_of_ne hne φ ψ ▸ hm'.2 G' hG' hid'⟩
    obtain ⟨place, z, hselector, hstands, hat⟩ :=
      (h.rest m' hm'' hne).of_slots hΓ hm hm'.1 hG hne hne hsame'
    exact ⟨place, z, hselector, hstands, hat.congr (update_of_ne hne ..)
      fun G' _ _ => halike G'⟩

/-! ## Steps -/

variable {ev : Event}

/-- What one machine does has nothing to do with guards elsewhere. -/
theorem foreign_of_machine (hΓ : Γ.Sound) (hm : Γ.IsMachine m) (hG : G ∈ Γ.sites) (hid : G.id ≠ m)
    (houter : G.outer ≠ m) (hev : ev.Of (Γ.selectorOf m)) : (Γ.guard G).Foreign Γ.kept ev := by
  have hout : Γ.selectorOf m ≠ (Γ.guard G).outer := fun heq =>
    houter (hΓ.selectorOf_inj hm (hΓ.outer_isMachine hG) heq).symm
  refine ⟨fun hmine => hid ?_, fun haround => hout (hev.around haround),
    fun henters => hout (hev.enters henters)⟩
  have hown : Γ.selectorOf m = G.selector := hev.mine hmine
  exact (hΓ.selectorOf_mem_steering hm hG (hown ▸ mem_cons_self)).symm

/-- What a machine does is not about the machines of the guards in it. -/
theorem not_mine_of_machine (hΓ : Γ.Sound) (hG : G ∈ Γ.sites) (hev : ev.Of (Γ.selectorOf G.outer)) :
    ¬ (Γ.guard G).Mine Γ.kept ev := fun hmine => by
  have hown : Γ.selectorOf G.outer = G.selector := hev.mine hmine
  exact hΓ.outer_ne hG (hΓ.selectorOf_mem_steering (hΓ.outer_isMachine hG) hG
    (hown ▸ mem_cons_self))

/-- The running machine does something: it is for its own guard and for those in it to agree. -/
theorem Steady.step_machine (hΓ : Γ.Sound) (h : Γ.Steady m ψ vars) (hev : ev.Of (Γ.selectorOf m))
    (hown : ∀ G ∈ Γ.sites, G.id = m → (Γ.guard G).Step Γ.tags Γ.kept (ψ m) ev (ψ' m))
    (hin : ∀ G ∈ Γ.sites, G.outer = m → (Γ.guard G).Step Γ.tags Γ.kept (ψ G.id) ev (ψ' G.id))
    (hsame : ∀ G ∈ Γ.sites, G.id ≠ m → G.outer ≠ m → ψ' G.id = ψ G.id) : Γ.Step ψ ev ψ' := by
  refine ⟨?_, ?_, fun G hG => ?_⟩
  · rintro f rfl
    exact hev
  · rintro selector number rfl
    exact hev
  · by_cases hid : G.id = m
    · rw [hid]
      exact hown G hG hid
    · by_cases houter : G.outer = m
      · exact hin G hG houter
      · rw [hsame G hG hid houter]
        exact (foreign_of_machine hΓ h.alive.1 hG hid houter hev).step (h.loose G hG hid houter)

variable (Γ) in
/-- The event is about what belongs to a guard and to no other. -/
def Owned (G : Site) : Event → Prop
  | .assign x _ => Γ.Slot G x
  | .clear x => Γ.Slot G x
  | .close x _ _ => x ∈ G.fields.resources
  | .handle selector _ _ => selector = G.selector
  | .wait pending _ => pending = G.fields.pending
  | .settle pending _ => pending = G.fields.pending
  | _ => False

/-- What belongs to one guard is foreign to all others. -/
theorem foreign_of_owned (hΓ : Γ.Sound) (hG : G ∈ Γ.sites) (hG' : G' ∈ Γ.sites) (hne : G' ≠ G)
    (hev : Γ.Owned G ev) : (Γ.guard G').Foreign Γ.kept ev := by
  have hpending : ∀ {G : Site}, G.fields.pending ∈ G.steering := by simp [Site.steering]
  cases ev with
  | assign | clear => exact ⟨foreign_of_slot hΓ hG hG' hne hev, id, id⟩
  | close => exact ⟨fun hx => hne (hΓ.resource_inj hG' hG hx hev), id, id⟩
  | handle selector =>
    refine ⟨fun hown => hne (hΓ.steering_inj hG' hG (x := selector) ?_ ?_), id, id⟩
    · exact (hown : selector = G'.selector) ▸ mem_cons_self
    · exact (hev : selector = G.selector) ▸ mem_cons_self
  | wait pending | settle pending =>
    refine ⟨fun hown => hne (hΓ.steering_inj hG' hG (x := pending) ?_ ?_), id, id⟩
    · exact (hown : pending = G'.fields.pending) ▸ hpending
    · exact (hev : pending = G.fields.pending) ▸ hpending
  | _ => exact hev.elim

/-- A guard does something of its own while all others wait. -/
theorem step_owned (hΓ : Γ.Sound) (hG : G ∈ Γ.sites) (hev : Γ.Owned G ev)
    (hothers : ∀ G' ∈ Γ.sites, G' ≠ G → (ψ G'.id).Loose)
    (hstep : (Γ.guard G).Step Γ.tags Γ.kept (ψ G.id) ev φ) :
    Γ.Step ψ ev (update ψ G.id φ) := by
  refine ⟨?_, ?_, fun G' hG' => ?_⟩
  · rintro f rfl
    exact hev
  · rintro selector number rfl
    exact hev
  · by_cases heq : G' = G
    · rw [heq, update_self]
      exact hstep
    · rw [hΓ.update_ne hG hG' heq]
      exact (foreign_of_owned hΓ hG hG' heq hev).step (hothers G' hG' heq)

/-- Variables that any code may store to belong to no guard. -/
theorem not_slot_of_free (hΓ : Γ.Sound) (hG : G ∈ Γ.sites) (hx : Γ.Free x) : ¬ Γ.Slot G x := by
  rintro (hslot | ⟨-, hkept⟩)
  · exact hx.1 ((hΓ.lies G hG).steers x hslot)
  · exact hx.2 hkept

/-- Code stores to a variable of its own. -/
theorem step_assign (hΓ : Γ.Sound) (hloose : ∀ G ∈ Γ.sites, (ψ G.id).Loose) (hx : Γ.Free x)
    (v : Value) : Γ.Step ψ (.assign x v) ψ :=
  ⟨fun _ h => (by cases h), fun _ _ h => (by cases h), fun G hG =>
    Guard.Foreign.step ⟨not_slot_of_free hΓ hG hx, id, id⟩ (hloose G hG)⟩

/-- Code drops a variable of its own. -/
theorem step_clear (hΓ : Γ.Sound) (hloose : ∀ G ∈ Γ.sites, (ψ G.id).Loose) (hx : Γ.Free x) :
    Γ.Step ψ (.clear x) ψ :=
  ⟨fun _ h => (by cases h), fun _ _ h => (by cases h), fun G hG =>
    Guard.Foreign.step ⟨not_slot_of_free hΓ hG hx, id, id⟩ (hloose G hG)⟩

end Plan

end Lowering

end Resumable
