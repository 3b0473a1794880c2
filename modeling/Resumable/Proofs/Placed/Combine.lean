import Resumable.Proofs.Placed.Sites
import Resumable.Proofs.Placed.Stores

/-!
# Code in its place

* `Plan.Fits` and `Plan.Covers`: a plan agrees with what lowering knows before and after code was
  made;
* `Placed` says that code is laid out in every plan that agrees with what lowering knows after it,
  with the zones of its states and its guards;
* `Places.seq` and `Places.openWith` put the code of two phrases together.
-/

namespace Resumable

open List

namespace Lowering

open Ledger Code

/-! ## Plans that agree with lowering -/

variable {L L₁ : Ledger} {ts : List Stmt} {ms : List Machine} {ss : List Site}

/-- What is known of the tag of a new state. -/
theorem Ledger.target_of_enter {T : TagTable} {tag : Tag} (henter : L.enter tag = .ok L₁)
    (hT : L₁.tags.Extends T) :
    T.target? tag = some ⟨L.size + 1⟩ ∧ T.owner tag = L.tags.owner tag := by
  obtain ⟨tags, hresolve, rfl⟩ := enter_ok henter
  obtain ⟨owner, hopen, rfl⟩ := TagTable.resolve_ok hresolve
  have hi : tag.index < L.tags.slots.size := (Array.getElem?_eq_some_iff.mp hopen).1
  have hslot : (L.tags.slots.setIfInBounds tag.index ⟨owner, some ⟨L.size + 1⟩⟩)[tag.index]? =
      some ⟨owner, some ⟨L.size + 1⟩⟩ := by
    rw [Array.getElem?_setIfInBounds_self_of_lt hi]
  obtain ⟨slot, hslot', howner, htarget⟩ := hT _ _ hslot
  refine ⟨?_, ?_⟩
  · rw [TagTable.target?, hslot']
    exact htarget _ rfl
  · rw [TagTable.owner, TagTable.owner, hslot', hopen, Option.map_some, Option.map_some, howner]

/-- The second ledger has one more state. -/
structure Ledger.Opens (L L₁ : Ledger) : Prop where
  grows : L.Grows L₁
  size : L₁.size = L.size + 1
  nextMachine : L₁.nextMachine = L.nextMachine
  scopes : L₁.scopes = L.scopes
  exits : L₁.exits = L.exits

theorem Ledger.opens_of_enter {tag : Tag} (h : L.enter tag = .ok L₁) : L.Opens L₁ := by
  have hgrows := enter_grows h
  have hsize := size_enter h
  obtain ⟨_, _, rfl⟩ := enter_ok h
  exact ⟨hgrows, hsize, rfl, rfl, rfl⟩

theorem Ledger.Opens.of_reserve {n : Nat} (h : (L.reserve n).Opens L₁) : L.Opens L₁ :=
  ⟨(L.reserve_grows n).trans h.grows, h.size, h.nextMachine, h.scopes, h.exits⟩

theorem Counted.after_open {L₂ : Ledger} (h : Counted L₁ L₂ ts ms ss) (hopens : L.Opens L₁) :
    Counted L L₂ ts ms ss :=
  h.congr hopens.nextMachine.symm rfl hopens.grows.symbols.size_le (Nat.le_refl _)

theorem Counted.of_reserve {n : Nat}
    (h : Counted (L.reserve n) L₁ ts ms ss) : Counted L L₁ ts ms ss :=
  h.congr rfl rfl (Nat.le_refl _) (Nat.le_refl _)

theorem Counted.before_open {L₂ : Ledger} (h : Counted L L₁ ts ms ss) (hopens : L₁.Opens L₂) :
    Counted L L₂ ts ms ss :=
  h.congr rfl hopens.nextMachine (Nat.le_refl _) hopens.grows.symbols.size_le

/-- The tags that jumps may name. -/
def Context.tags (ctx : Context) : List Tag :=
  ctx.controls.flatMap fun c => c.breakTag :: c.continueTag.toList

namespace Plan

variable {u v zs : List Zone} {m : MachineId} {place : Nat}

/-- The fields that scopes drop may be stored to. -/
def FreeScopes (Γ : Plan) (L : Ledger) : Prop := ∀ scope ∈ L.scopes, ∀ x ∈ scope, Γ.Free x

/-- The zones of states from a place on. -/
def Zoned (Γ : Plan) (m : MachineId) (place : Nat) (zones : List Zone) : Prop :=
  ∀ i z, zones[i]? = some z → Γ.Stands m (place + i) z

/-- The plan agrees with what is known before code is made. -/
structure Fits (Γ : Plan) (ctx : Context) (L : Ledger) (finals : List MachineId) : Prop where
  known : ∀ t ∈ ctx.tags, t.index < L.tags.size
  older : ∀ t ∈ ctx.tags, (Γ.tags.owner t).number < L.nextMachine
  leads : ∀ t ∈ ctx.tags, Γ.tags.owner t = L.machine → Γ.Leads L.machine finals t
  machine : L.machine.number < L.nextMachine
  scopes : Γ.FreeScopes L
  kept : ∀ x, Γ.kept x → x.index < L.symbols.size
  root : L.pendingJump = none → L.machine = .root
  nested : ∀ field, L.pendingJump = some field → ∃ G ∈ Γ.sites, G.id = L.machine ∧
    G.fields.pendingJump = field
  finished : L.tags.target? .finished = some .finished
  finished_owner : L.tags.owner .finished = .root
  unique : ∀ G ∈ Γ.sites, ∀ G' ∈ Γ.sites, G.id = G'.id → G = G'
  finals : ∀ g ∈ finals, g.number < L.nextMachine

/-- The plan agrees with what is known after code was made. -/
structure Covers (Γ : Plan) (L L' : Ledger) (zones : List Zone) (sites : List Site) : Prop where
  tags : L'.tags.Extends Γ.tags
  symbols : L'.symbols.Extends Γ.symbols
  sites : ∀ G ∈ sites, G ∈ Γ.sites
  zones : Γ.Zoned L.machine L.size zones
  exits : ∀ G ∈ Γ.sites, G.id = L.machine → L'.exits ⊆ G.exits

variable {Γ : Plan} {ctx : Context} {L L' L₁ L₂ : Ledger} {finals : List MachineId}

theorem Zoned.left (h : Γ.Zoned m place (u ++ v)) : Γ.Zoned m place u := by
  intro i z hz
  have hi : i < u.length := (List.getElem?_eq_some_iff.mp hz).1
  exact h i z (by rw [getElem?_append_left hi, hz])

theorem Zoned.right (h : Γ.Zoned m place (u ++ v)) : Γ.Zoned m (place + u.length) v := by
  intro i z hz
  have hplace := h (u.length + i) z (by rw [getElem?_append_right (Nat.le_add_right ..),
    Nat.add_sub_cancel_left, hz])
  rwa [← Nat.add_assoc] at hplace

theorem Zoned.head {z : Zone} (h : Γ.Zoned m place (z :: zs)) : Γ.Stands m place z := h 0 z rfl

theorem Zoned.tail {z : Zone} (h : Γ.Zoned m place (z :: zs)) : Γ.Zoned m (place + 1) zs :=
  Zoned.right (u := [z]) h

theorem Fits.grow (h : Γ.Fits ctx L finals) (hgrows : L.Grows L₁) (hscopes : Γ.FreeScopes L₁) :
    Γ.Fits ctx L₁ finals where
  known := fun t ht => Nat.lt_of_lt_of_le (h.known t ht) hgrows.tags.size_le
  older := fun t ht => Nat.lt_of_lt_of_le (h.older t ht) hgrows.nextMachine
  leads := fun t ht howner => by
    rw [hgrows.machine] at howner ⊢
    exact h.leads t ht howner
  machine := by
    rw [hgrows.machine]
    exact Nat.lt_of_lt_of_le h.machine hgrows.nextMachine
  scopes := hscopes
  kept := fun x hx => Nat.lt_of_lt_of_le (h.kept x hx) hgrows.symbols.size_le
  root := fun hroot => by
    rw [hgrows.machine]
    exact h.root (hgrows.pendingJump ▸ hroot)
  nested := fun field hfield => by
    rw [hgrows.machine]
    exact h.nested field (hgrows.pendingJump ▸ hfield)
  finished := hgrows.tags.target_eq h.finished
  finished_owner := by
    obtain ⟨slot, hslot, _⟩ := Option.bind_eq_some_iff.mp h.finished
    exact (hgrows.tags.owner_eq (Array.getElem?_eq_some_iff.mp hslot).1).trans h.finished_owner
  unique := h.unique
  finals := fun g hg => Nat.lt_of_lt_of_le (h.finals g hg) hgrows.nextMachine

/-- The plan agrees also inside one more target of jumps. -/
theorem Fits.enter {c : Control} (h : Γ.Fits ctx L finals)
    (hc : ∀ t ∈ c.breakTag :: c.continueTag.toList,
      t.index < L.tags.size ∧ Γ.tags.owner t = L.machine ∧ Γ.Leads L.machine finals t) :
    Γ.Fits (ctx.enter c) L finals := by
  have hsplit : ∀ t ∈ (ctx.enter c).tags, t ∈ c.breakTag :: c.continueTag.toList ∨ t ∈ ctx.tags :=
    fun t ht => mem_append.mp ht
  refine { h with known := fun t ht => ?_, older := fun t ht => ?_, leads := fun t ht howner => ?_ }
  · exact (hsplit t ht).elim (fun ht => (hc t ht).1) (h.known t)
  · rcases hsplit t ht with ht | ht
    · rw [(hc t ht).2.1]
      exact h.machine
    · exact h.older t ht
  · exact (hsplit t ht).elim (fun ht => (hc t ht).2.2) fun ht => h.leads t ht howner

/-- The plan agrees also in the final code of one more guard. -/
theorem Fits.weaken {site : MachineId} (h : Γ.Fits ctx L finals)
    (hsite : site.number < L.nextMachine) : Γ.Fits ctx L (site :: finals) :=
  { h with
    leads := fun t ht howner => (h.leads t ht howner).weaken (suffix_cons _ _)
    finals := fun g hg => (mem_cons.mp hg).elim (fun hg => hg ▸ hsite) (h.finals g) }

variable {tag : Tag}

/-- A state that was opened for a tag is where the tag leads. -/
theorem resumes_of_enter (henter : L.enter tag = .ok L₁) (hgrows : L₁.tags.Extends Γ.tags)
    (howner : L.tags.owner tag = L.machine) (hstands : Γ.Stands L.machine L.size (.code finals)) :
    Γ.Resumes L.machine finals tag := by
  obtain ⟨htarget, howner'⟩ := target_of_enter henter hgrows
  exact ⟨L.size, htarget, howner'.trans howner, hstands⟩

theorem resumes_of_enter_owner (henter : L.enter tag = .ok L₁)
    (hgrows : L₁.tags.Extends Γ.tags) (howner : Γ.tags.owner tag = L.machine)
    (hstands : Γ.Stands L.machine L.size (.code finals)) : Γ.Resumes L.machine finals tag :=
  ⟨L.size, (target_of_enter henter hgrows).1, howner, hstands⟩

/-- The tags that code leaves for the enclosing machine are those of targets in that machine. -/
def Leaves (Γ : Plan) (ctx : Context) (L L' : Ledger) : Prop :=
  ∀ t ∈ L'.exits, t ∈ L.exits ∨ ((t ∈ ctx.tags ∨ t = .finished) ∧ Γ.tags.owner t ≠ L.machine)

theorem Leaves.refl (Γ : Plan) (ctx : Context) (hexits : L'.exits = L.exits) : Γ.Leaves ctx L L' :=
  fun _ ht => .inl (hexits ▸ ht)

theorem Leaves.trans (h : Γ.Leaves ctx L L₁) (h' : Γ.Leaves ctx L₁ L₂)
    (hmachine : L₁.machine = L.machine) : Γ.Leaves ctx L L₂ := by
  intro t ht
  rcases h' t ht with ht | ht
  · exact h t ht
  · exact .inr (hmachine ▸ ht)

theorem FreeScopes.opens (h : Γ.FreeScopes L) (hopens : L.Opens L₁) : Γ.FreeScopes L₁ :=
  fun scope hscope => h scope (hopens.scopes ▸ hscope)

theorem Fits.opens (h : Γ.Fits ctx L finals) (hopens : L.Opens L₁) : Γ.Fits ctx L₁ finals :=
  h.grow hopens.grows (FreeScopes.opens h.scopes hopens)

theorem Leaves.after_open (h : Γ.Leaves ctx L₁ L₂) (hopens : L.Opens L₁) : Γ.Leaves ctx L L₂ :=
  Leaves.trans (.refl Γ ctx hopens.exits) h hopens.grows.machine

theorem Leaves.before_open (h : Γ.Leaves ctx L L₁) (hopens : L₁.Opens L₂) : Γ.Leaves ctx L L₂ :=
  fun t ht => h t (hopens.exits ▸ ht)

/-- A tag of a target in the machine at hand is never left. -/
theorem Leaves.of_enter {c : Control} (h : Γ.Leaves (ctx.enter c) L L')
    (hc : ∀ t ∈ c.breakTag :: c.continueTag.toList, Γ.tags.owner t = L.machine) :
    Γ.Leaves ctx L L' := by
  intro t ht
  refine (h t ht).imp_right fun ⟨htag, howner⟩ => ⟨htag.imp_left fun htag => ?_, howner⟩
  exact (mem_append.mp htag).resolve_left fun htag => howner (hc t htag)

theorem FreeScopes.exitClears (h : Γ.FreeScopes L) (ctx : Context) (tag : Tag) :
    ∃ xs : List SymbolId, L.exitClears ctx tag = xs.map Op.clear ∧ ∀ x ∈ xs, Γ.Free x := by
  refine ⟨_, rfl, fun x hx => ?_⟩
  obtain ⟨scope, hscope, hx⟩ := mem_flatten.mp hx
  exact h scope (mem_of_mem_take hscope) x hx

/-- The ops of a transfer are a route. -/
theorem route_laid {ops : List Op} (hfits : Γ.Fits ctx L finals)
    (hroute : L.route ctx tag = .ok (ops, L')) (htag : tag ∈ ctx.tags ∨ tag = .finished)
    (hT : L'.tags.Extends Γ.tags) (hexits : ∀ G ∈ Γ.sites, G.id = L.machine → L'.exits ⊆ G.exits) :
    Γ.Route L.machine finals tag ops ∧ Γ.FreeScopes L' ∧ Γ.Leaves ctx L L' := by
  have hknown : tag.index < L.tags.size := by
    rcases htag with htag | rfl
    · exact hfits.known tag htag
    · obtain ⟨slot, hslot, _⟩ := Option.bind_eq_some_iff.mp hfits.finished
      exact (Array.getElem?_eq_some_iff.mp hslot).1
  have hgrows := route_grows hroute
  have howner : Γ.tags.owner tag = L.tags.owner tag := (hgrows.tags.trans hT).owner_eq hknown
  obtain ⟨xs, hclears, hfree⟩ := FreeScopes.exitClears hfits.scopes ctx tag
  unfold Ledger.route at hroute
  split at hroute
  · next hmachine =>
    cases hroute
    refine ⟨?_, hfits.scopes, .refl Γ ctx rfl⟩
    rw [hclears]
    by_cases hfinished : tag = .finished
    · rw [if_pos hfinished]
      refine .finish hfree ?_ hfinished
      rw [← hmachine, hfinished, hfits.finished_owner]
    · rw [if_neg hfinished]
      exact .within hfree (hfits.leads tag (htag.resolve_right hfinished) (howner.trans hmachine))
  · next hmachine =>
    split at hroute
    · cases hroute
    · next field hfield =>
      obtain ⟨G, hG, hid, hpending⟩ := hfits.nested field hfield
      cases hroute
      have hmem : ∀ t, t ∈ (if L.exits.contains tag then L.exits else L.exits ++ [tag]) ↔
          t ∈ L.exits ∨ t = tag := by
        intro t
        split
        · next hcontains =>
          refine ⟨.inl, fun ht => ht.elim id fun ht => ?_⟩
          rw [ht]
          exact contains_iff_mem.mp hcontains
        · simp
      have hforeign : Γ.tags.owner tag ≠ L.machine := howner ▸ hmachine
      refine ⟨?_, hfits.scopes, fun t ht => ?_⟩
      · rw [hclears, ← hpending]
        exact .leave hfree hG hid (hexits G hG hid ((hmem tag).mpr (.inr rfl)))
          (Nat.lt_of_lt_of_le hknown (hgrows.tags.trans hT).size_le) hforeign
      · rcases (hmem t).mp ht with ht | rfl
        · exact .inl ht
        · exact .inr ⟨htag, hforeign⟩

end Plan

/-! ## Code in its place -/

namespace Phrase

/-- What the code of a phrase relies on. -/
def Ready (Γ : Plan) (m : MachineId) (finals : List MachineId) : Phrase → Prop
  | cases endTag cs => Γ.Leads m finals endTag ∧ ∀ c ∈ cs, Γ.tags.owner c.2 = m
  | loop shape _ _ => Γ.Laid m finals shape.start
  | handlers _ _ => finals = []
  | guarded _ _ _ _ => finals = []
  | scope p => p.Ready Γ m finals
  | _ => True

/-- The ops for resources with which the code of a phrase starts. -/
def inits : Phrase → List Op
  | opening rs _ => initOps rs
  | guarded rs _ _ _ => initOps rs
  | scope p => p.inits
  | _ => []

/-- What the code of a phrase is good for. -/
def Given (Γ : Plan) (m : MachineId) (finals : List MachineId) : Phrase → Prop
  | cases _ cs => ∀ c ∈ cs, Γ.Leads m finals c.2
  | handlers _ hs => ∀ h ∈ hs, Γ.Free h.param ∧ Γ.Resumes m [] h.entry
  | guarded _ _ _ hs => ∀ h ∈ hs, Γ.Free h.param ∧ Γ.Resumes m [] h.entry
  | _ => True

end Phrase

/-- The code of the phrase may store what it stores. -/
structure Plan.Admits (Γ : Plan) (ctx : Context) (ph : Phrase) : Prop where
  stores : ∀ x ∈ ph.stores ctx.markers, Γ.Free x
  tries : ∀ t ∈ ph.tries ctx.markers, ∀ x ∈ t.resourceNames, ¬ Γ.symbols.Steers x

/-- Code without its first ops. -/
def Code.behind (c : Code) (n : Nat) : Code := ⟨c.ops.drop n, c.states⟩

theorem Code.ops_prefix_append (a b : Code) : a.ops <+: (a ++ b).ops := by
  obtain ⟨ops, ss⟩ := a
  cases ss with
  | nil => exact prefix_append _ _
  | cons => exact prefix_refl _

theorem Code.behind_append {c : Code} {n : Nat} (h : n ≤ c.ops.length) (b : Code) :
    (c ++ b).behind n = c.behind n ++ b := by
  obtain ⟨ops, ss⟩ := c
  cases ss with
  | nil =>
    have hdrop : (ops ++ b.ops).drop n = ops.drop n ++ b.ops := drop_append_of_le_length h
    simp only [behind, mk_nil_append, hdrop]
  | cons => simp only [behind, mk_cons_append]

/-- Code is laid out in a plan, and so is what stands in it. -/
structure Plan.Holds (Γ : Plan) (ctx : Context) (L : Ledger) (ph : Phrase) (code : Code)
    (L' : Ledger) (finals : List MachineId) (zones : List Zone) (sites : List Site) : Prop where
  code : Γ.LaidCode L.machine finals zones (code.behind ph.inits.length)
  sites : ∀ G ∈ sites, Γ.Lies G
  scopes : Γ.FreeScopes L'
  exits : Γ.Leaves ctx L L'
  given : ph.Given Γ L.machine finals

/-- Code is laid out in every plan that agrees with lowering. -/
structure Placed (ctx : Context) (L : Ledger) (ph : Phrase) (code : Code) (L' : Ledger)
    (finals : List MachineId) (zones : List Zone) (sites : List Site) : Prop where
  length : zones.length = code.states.length
  counted : Counted L L' (ph.tries ctx.markers) code.machines sites
  holds : ∀ Γ : Plan, Γ.Fits ctx L finals → Γ.Covers L L' zones sites →
    ph.Ready Γ L.machine finals →
    Γ.Admits ctx ph → Γ.Holds ctx L ph code L' finals zones sites

/-- Code can be placed in all final code. -/
def Places (ctx : Context) (L : Ledger) (ph : Phrase) (code : Code) (L' : Ledger) : Prop :=
  ∀ finals, ∃ zones sites, Placed ctx L ph code L' finals zones sites

section Rules

variable {more : Code} {hs : List Handler} {finals : List MachineId} {cur ops : List Op}
  {ss ss' : List Site} {cases : List SwitchCase} {xs : List SymbolId} {exits tags : List Tag}
  {u v zs : List Zone} {no : Option Stmt} {shape : Part.LoopShape} {Γ : Plan} {field x : SymbolId}
  {tag : Tag} {ctx : Context} {L L' L₁ L₂ : Ledger} {p q r : Phrase} {code a b : Code}

theorem Plan.Covers.first (h : Γ.Covers L L₂ (u ++ v) (ss ++ ss')) (hgrows : L₁.Grows L₂) :
    Γ.Covers L L₁ u ss where
  tags := hgrows.tags.trans h.tags
  symbols := hgrows.symbols.trans h.symbols
  sites := fun G hG => h.sites G (mem_append_left _ hG)
  zones := h.zones.left
  exits := fun G hG hid _ ht => h.exits G hG hid (hgrows.exits ht)

theorem Plan.Covers.second (h : Γ.Covers L L₂ (u ++ v) (ss ++ ss'))
    (hmachine : L₁.machine = L.machine) (hsize : L₁.size = L.size + u.length) :
    Γ.Covers L₁ L₂ v ss' where
  tags := h.tags
  symbols := h.symbols
  sites := fun G hG => h.sites G (mem_append_right _ hG)
  zones := by
    rw [hmachine, hsize]
    exact h.zones.right
  exits := fun G hG hid => h.exits G hG (hid.trans hmachine)

/-- What is known before more states are opened. -/
theorem Plan.Covers.before (h : Γ.Covers L L₂ (u ++ v) ss) (hgrows : L₁.Grows L₂) :
    Γ.Covers L L₁ u ss := by
  rw [← List.append_nil ss] at h
  exact h.first hgrows

/-- What is known after some states were opened. -/
theorem Plan.Covers.after (h : Γ.Covers L L₂ (u ++ v) ss) (hmachine : L₁.machine = L.machine)
    (hsize : L₁.size = L.size + u.length) : Γ.Covers L₁ L₂ v ss := by
  rw [← nil_append ss] at h
  exact h.second hmachine hsize

/-- Ops that hold no machine and open no state. -/
theorem Places.now (hinits : p.inits = []) (htries : p.tries ctx.markers = [])
    (hmachines : machinesInOps ops = []) (hnext : L'.nextMachine = L.nextMachine)
    (hsymbols : L.symbols.size ≤ L'.symbols.size) (hgiven : ∀ Γ m finals, p.Given Γ m finals)
    (hlaid : ∀ (Γ : Plan) finals, Γ.Fits ctx L finals → Γ.Covers L L' [] [] →
      p.Ready Γ L.machine finals →
      Γ.Admits ctx p → Γ.Laid L.machine finals ops ∧ Γ.FreeScopes L' ∧ Γ.Leaves ctx L L') :
    Places ctx L p (.now ops) L' := by
  refine fun finals => ⟨[], [], rfl, ?_, fun Γ hfits hcovers hready hadmits => ?_⟩
  · rw [machines_now, hmachines, htries]
    exact .nil hnext hsymbols
  · obtain ⟨hops, hscopes, hexits⟩ := hlaid Γ finals hfits hcovers hready hadmits
    exact ⟨hinits ▸ .now hops, nofun, hscopes, hexits, hgiven Γ _ _⟩

/-- Code of one phrase as that of another. -/
theorem Places.relabel (h : Places ctx L p code L') (hinits : p.inits = r.inits)
    (htries : p.tries ctx.markers = r.tries ctx.markers)
    (hstores : ∀ x ∈ p.stores ctx.markers, x ∈ r.stores ctx.markers)
    (hready : ∀ Γ m finals, r.Ready Γ m finals → p.Ready Γ m finals)
    (hgiven : ∀ Γ m finals, p.Given Γ m finals → r.Given Γ m finals) : Places ctx L r code L' := by
  intro finals
  obtain ⟨zones, sites, hplaced⟩ := h finals
  refine ⟨zones, sites, hplaced.length, htries ▸ hplaced.counted,
    fun Γ hfits hcovers hr hadmits => ?_⟩
  have hholds := hplaced.holds Γ hfits hcovers (hready _ _ _ hr)
    ⟨fun x hx => hadmits.stores x (hstores x hx), htries ▸ hadmits.tries⟩
  exact ⟨hinits ▸ hholds.code, hholds.sites, hholds.scopes, hholds.exits, hgiven _ _ _ hholds.given⟩

/-- What a phrase may store, its parts may. -/
theorem Plan.Admits.split (h : Γ.Admits ctx r)
    (htries : p.tries ctx.markers ++ q.tries ctx.markers = r.tries ctx.markers)
    (hstores : ∀ x, x ∈ p.stores ctx.markers ∨ x ∈ q.stores ctx.markers →
      x ∈ r.stores ctx.markers) :
    Γ.Admits ctx p ∧ Γ.Admits ctx q := by
  refine ⟨⟨fun x hx => h.stores x (hstores x (.inl hx)), fun t ht => h.tries t ?_⟩,
    ⟨fun x hx => h.stores x (hstores x (.inr hx)), fun t ht => h.tries t ?_⟩⟩
  · exact htries ▸ mem_append_left _ ht
  · exact htries ▸ mem_append_right _ ht

/-- Code of two phrases is laid out, that of the first one and that of the second one behind it. -/
theorem Placed.pair {zs' : List Zone} (hp : Placed ctx L p a L₁ finals zs ss)
    (hq : Placed ctx L₁ q b L₂ finals zs' ss') (hgrows : L.Grows L₁) (hgrows' : L₁.Grows L₂)
    (hsize : L₁.size = L.size + a.states.length) (hfits : Γ.Fits ctx L finals)
    (hcovers : Γ.Covers L L₂ (zs ++ zs') (ss ++ ss'))
    (hready : p.Ready Γ L.machine finals ∧ q.Ready Γ L.machine finals)
    (hadmits : Γ.Admits ctx p ∧ Γ.Admits ctx q) :
    Γ.LaidCode L.machine finals zs (a.behind p.inits.length) ∧
      Γ.LaidCode L.machine finals zs' (b.behind q.inits.length) ∧ q.Given Γ L.machine finals ∧
      (∀ G ∈ ss ++ ss', Γ.Lies G) ∧ Γ.FreeScopes L₂ ∧ Γ.Leaves ctx L L₂ := by
  have hsize' : L₁.size = L.size + zs.length := by rw [hp.length, hsize]
  have hfirst := hp.holds Γ hfits (hcovers.first hgrows') hready.1 hadmits.1
  have hsecond := hq.holds Γ (hfits.grow hgrows hfirst.scopes)
      (hcovers.second hgrows.machine hsize')
    (hgrows.machine ▸ hready.2) hadmits.2
  refine ⟨hfirst.code, hgrows.machine ▸ hsecond.code, hgrows.machine ▸ hsecond.given,
    fun G hG => ?_, hsecond.scopes,
    hfirst.exits.trans hsecond.exits hgrows.machine⟩
  exact (mem_append.mp hG).elim (hfirst.sites G) (hsecond.sites G)

/-- Code of two phrases, one after the other. -/
theorem Places.seq (hp : Places ctx L p a L₁) (hq : Places ctx L₁ q b L₂) (hgrows : L.Grows L₁)
    (hgrows' : L₁.Grows L₂) (hsize : L₁.size = L.size + a.states.length)
    (hinits : p.inits = [] ∧ q.inits = [] ∧ r.inits = [])
    (htries : p.tries ctx.markers ++ q.tries ctx.markers = r.tries ctx.markers)
    (hstores : ∀ x, x ∈ p.stores ctx.markers ∨ x ∈ q.stores ctx.markers → x ∈ r.stores ctx.markers)
    (hready : ∀ Γ m finals, r.Ready Γ m finals → p.Ready Γ m finals ∧ q.Ready Γ m finals)
    (hgiven : ∀ Γ m finals, r.Given Γ m finals) : Places ctx L r (a ++ b) L₂ := by
  intro finals
  obtain ⟨zs, ss, hplaced⟩ := hp finals
  obtain ⟨zs', ss', hplaced'⟩ := hq finals
  refine ⟨zs ++ zs', ss ++ ss', ?_, ?_, fun Γ hfits hcovers hr hadmits => ?_⟩
  · rw [length_append, hplaced.length, hplaced'.length, length_states_append]
  · exact htries ▸ (hplaced.counted.append hplaced'.counted).of_perm (machines_append a b)
  · obtain ⟨hfirst, hsecond, -, hsites, hscopes, hexits⟩ :=
      hplaced.pair hplaced' hgrows hgrows' hsize hfits hcovers
      (hready _ _ _ hr) (hadmits.split htries hstores)
    rw [hinits.1] at hfirst
    rw [hinits.2.1] at hsecond
    exact ⟨hinits.2.2 ▸ hfirst.append hsecond, hsites, hscopes, hexits, hgiven _ _ _⟩

/-- A new state with the code of a phrase, which an op ends, and that of another phrase behind it.
-/
theorem Places.openWith {op : Op} (hopens : L.Opens L₁) (hp : Places ctx L₁ p code L₂)
    (hq : Places ctx L₂ q more L') (hgrows : L₁.Grows L₂) (hgrows' : L₂.Grows L')
    (hsize : L₂.size = L₁.size + code.states.length) (hop : machinesInOp op = [])
    (hinits : p.inits = [] ∧ q.inits = [] ∧ r.inits = [])
    (htries : p.tries ctx.markers ++ q.tries ctx.markers = r.tries ctx.markers)
    (hstores : ∀ x, x ∈ p.stores ctx.markers ∨ x ∈ q.stores ctx.markers → x ∈ r.stores ctx.markers)
    (hready : ∀ Γ m finals, r.Ready Γ m finals → p.Ready Γ m finals ∧ q.Ready Γ m finals)
    (hgiven : ∀ (Γ : Plan) finals, L₁.tags.Extends Γ.tags →
      Γ.Stands L.machine L.size (.code finals) →
      r.Ready Γ L.machine finals → Γ.Admits ctx r → q.Given Γ L.machine finals →
      Γ.Laid L.machine finals [op] ∧ r.Given Γ L.machine finals) :
    Places ctx L r (.opened ++ code.sealed cur op ++ more) L' := by
  intro finals
  obtain ⟨zs, ss, hplaced⟩ := hp finals
  obtain ⟨zs', ss', hplaced'⟩ := hq finals
  refine ⟨[Zone.code finals] ++ (zs ++ zs'), ss ++ ss', ?_, ?_,
    fun Γ hfits hcovers hr hadmits => ?_⟩
  · simp [hplaced.length, hplaced'.length, Code.opened]
  · refine htries ▸ ((hplaced.counted.append hplaced'.counted).after_open hopens).of_perm ?_
    refine (machines_append _ _).trans (List.Perm.append_right _ ((machines_append _ _).trans ?_))
    exact machines_sealed hop cur code
  · obtain ⟨hfirst, hsecond, hq, hsites, hscopes, hexits⟩ :=
      hplaced.pair hplaced' hgrows hgrows' hsize
      (hfits.opens hopens) (hcovers.after hopens.grows.machine hopens.size)
      (hopens.grows.machine ▸ hready _ _ _ hr) (hadmits.split htries hstores)
    rw [hopens.grows.machine, hinits.1] at hfirst
    rw [hopens.grows.machine, hinits.2.1] at hsecond
    obtain ⟨hlaid, hr⟩ :=
      hgiven Γ finals ((hgrows.tags.trans hgrows'.tags).trans hcovers.tags) hcovers.zones.head hr
      hadmits (hopens.grows.machine ▸ hq)
    have hsealed : Γ.LaidCode L.machine finals zs (code.sealed cur op) :=
      Plan.LaidCode.sealed hfirst hlaid
    have hcode := (Plan.LaidCode.opened.append hsealed).append hsecond
    rw [List.append_assoc] at hcode
    exact ⟨hinits.2.2 ▸ hcode, hsites, hscopes, hexits.after_open hopens, hr⟩

end Rules

end Lowering

end Resumable
