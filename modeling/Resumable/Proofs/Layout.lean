import Mathlib.Data.List.Forall2
import Resumable.Proofs.Ledger
import Resumable.Proofs.Writes

/-!
# The layout of machines

What lowered code looks like, apart from the source that it is made of. It is a discipline for
jumps and stores, as a type system is one for values.

* every state has a `Zone`: it runs a guard, starts the final code of one, or is other code, and it
  lies in the final code of certain guards;
* a `Site` is a guard with the place where it stands, and a `Plan` is what all machines of a class
  are laid out by;
* `Plan.Laid` says which ops may stand one after the other in a state, and `Plan.LaidAt` which ops
  may make up a state of some zone: a guard is only entered through its reset, its final code only
  through the guard, and the fields that steer machines are stored to nowhere else.
-/

namespace Resumable

open List

/-- The variable steers machines: it is a selector or a field of a guard. -/
def SymbolTable.Steers (t : SymbolTable) (x : SymbolId) : Prop :=
  ∃ info, t.get? x = some info ∧ info.kind = .synthetic ∧
    info.name ∈ ["selector", "handling", "pending", "pendingJump"]

namespace Lowering

/-! ## Zones, sites and plans -/

/-- What a state is for. The guards in whose final code it lies are named by their machines,
innermost first. -/
inductive Zone where
  /-- code that has nothing to do with a guard of its machine -/
  | code (finals : List MachineId)
  /-- the state that runs a guard -/
  | guard (site : MachineId) (finals : List MachineId)
  /-- the first state of the final code of a guard -/
  | final (site : MachineId) (finals : List MachineId)
  /-- the first state of the machine of a guard, where resources get their first values -/
  | first

/-- A guard and where it stands. -/
structure Site where
  /-- the machine in which it stands -/
  outer : MachineId
  /-- the place of its state; its final code starts at the next one -/
  place : Nat
  /-- the tag of its state; the next two are those of its final code and of what is behind it -/
  tag : Tag
  /-- the guards in whose final code it stands -/
  finals : List MachineId
  /-- the machine that it runs -/
  machine : Machine
  /-- its fields -/
  fields : GuardFields
  /-- the tags that its machine may leave for the enclosing one -/
  exits : List Tag
  /-- the zones of the states of its machine -/
  zones : List Zone
  /-- the tags that are known behind its machine -/
  known : TagTable
  /-- the first state of its final code -/
  final : List Op

namespace Site

/-- The machine that the guard runs, which names the guard. -/
def id (G : Site) : MachineId := G.machine.id

/-- The selector of the machine that the guard runs. -/
def selector (G : Site) : SymbolId := G.machine.selector

/-- The tag of its final code. -/
def finalTag (G : Site) : Tag := ⟨G.tag.index + 1⟩

/-- The tag of what is behind it. -/
def endTag (G : Site) : Tag := ⟨G.tag.index + 2⟩

/-- The ops that reset the guard. -/
def reset (G : Site) : List Op :=
  [.assign G.selector (.int 1), .assign G.fields.inHandler (.bool false),
    .assign G.fields.pending .null, .assign G.fields.pendingJump (.int (-1))] ++
    G.fields.resources.map fun x => .assign x .null

/-- The fields that steer the guard. -/
def steering (G : Site) : List SymbolId :=
  [G.selector, G.fields.inHandler, G.fields.pending, G.fields.pendingJump]

end Site

/-- What all machines of a class are laid out by. -/
structure Plan where
  /-- all tags -/
  tags : TagTable
  /-- all variables -/
  symbols : SymbolTable
  /-- the selector of the root machine -/
  selector : SymbolId
  /-- all guards -/
  sites : List Site
  /-- the zones of the states of the root machine -/
  zones : List Zone
  /-- variables of resources to which only their guard stores -/
  kept : SymbolId → Prop

namespace Plan

variable (Γ : Plan)

/-- The state at a place of a machine has a zone. -/
def Stands (m : MachineId) (place : Nat) (z : Zone) : Prop :=
  (m = .root ∧ Γ.zones[place]? = some z) ∨ ∃ G ∈ Γ.sites, G.id = m ∧ G.zones[place]? = some z

/-- Any code may store to the variable. -/
def Free (x : SymbolId) : Prop := ¬ Γ.symbols.Steers x ∧ ¬ Γ.kept x

/-- Inside final code of `finals`, the tag leads to a state of the machine that is outside all other
final code. -/
def Leads (m : MachineId) (finals : List MachineId) (tag : Tag) : Prop :=
  ∃ place finals', Γ.tags.target? tag = some ⟨place + 1⟩ ∧ Γ.tags.owner tag = m ∧
    Γ.Stands m place (.code finals') ∧ finals' <:+ finals

/-- The tag leads to a state of the machine in the same final code. -/
def Resumes (m : MachineId) (finals : List MachineId) (tag : Tag) : Prop :=
  ∃ place, Γ.tags.target? tag = some ⟨place + 1⟩ ∧ Γ.tags.owner tag = m ∧
    Γ.Stands m place (.code finals)

/-- A guard stands where it says. -/
structure Lies (G : Site) : Prop where
  tag_target : Γ.tags.target? G.tag = some ⟨G.place + 1⟩
  tag_owner : Γ.tags.owner G.tag = G.outer
  guard : Γ.Stands G.outer G.place (.guard G.id G.finals)
  final_target : Γ.tags.target? G.finalTag = some ⟨G.place + 2⟩
  final_owner : Γ.tags.owner G.finalTag = G.outer
  final : Γ.Stands G.outer (G.place + 1) (.final G.id G.finals)
  known : G.known.Extends Γ.tags
  start : Γ.Stands G.id 0 .first
  steers : ∀ x ∈ G.steering, Γ.symbols.Steers x
  resources : ∀ x ∈ G.fields.resources, ¬ Γ.symbols.Steers x
  handlers : ∀ h ∈ G.fields.handlers, Γ.Free h.param ∧ Γ.Resumes G.id [] h.entry
  outer_lt : G.outer.number < G.id.number
  finals_lt : ∀ g ∈ G.finals, g.number < G.id.number

/-! ## Ops -/

/-- The ops transfer control to a tag: within its machine, out of the root machine, or by leaving
the tag for the enclosing machine. -/
inductive Route (m : MachineId) (finals : List MachineId) (tag : Tag) : List Op → Prop where
  | within {xs : List SymbolId} (hxs : ∀ x ∈ xs, Γ.Free x) (htag : Γ.Leads m finals tag) :
      Route m finals tag (xs.map Op.clear ++ [.jump tag])
  | finish {xs : List SymbolId} (hxs : ∀ x ∈ xs, Γ.Free x) (hroot : m = .root)
    (htag : tag = .finished) :
      Route m finals tag (xs.map Op.clear ++ [.finish])
  | leave {xs : List SymbolId} {G : Site} (hxs : ∀ x ∈ xs, Γ.Free x) (hG : G ∈ Γ.sites)
    (hm : G.id = m)
      (htag : tag ∈ G.exits) (hknown : tag.index < Γ.tags.size) (howner : Γ.tags.owner tag ≠ m) :
      Route m finals tag
        (xs.map Op.clear ++ [.assign G.fields.pendingJump (.int (Int64.ofNat tag.index)), .finish])

/-- Whether a tag waits in a field. -/
def waits (field : Ident) (tag : Tag) : Expr :=
  .binary .eq (.ident field) (.int (Int64.ofNat tag.index))

/-- The ops go to the tags, if they wait in the field, in order. -/
inductive Routes (m : MachineId) (finals : List MachineId) (field : SymbolId) :
    List Tag → List Op → Prop where
  | nil : Routes m finals field [] []
  | cons {x tag tags ops more} (hx : x.symbol = some field) (hroute : Γ.Route m finals tag ops)
      (hmore : Routes m finals field tags more) :
      Routes m finals field (tag :: tags) (.cond (waits x tag) ops [] :: more)

/-- The ops may stand in a state of the machine in that final code. -/
inductive Laid (m : MachineId) (finals : List MachineId) : List Op → Prop where
  | nil : Laid m finals []
  | plain {s ops} (hs : ∀ x ∈ s.writes, Γ.Free x) (hops : Laid m finals ops) :
    Laid m finals (.plain s :: ops)
  | assign {x e ops} (hx : Γ.Free x) (he : ∀ y ∈ e.writes, Γ.Free y) (hops : Laid m finals ops) :
      Laid m finals (.assign x e :: ops)
  | clear {x ops} (hx : Γ.Free x) (hops : Laid m finals ops) : Laid m finals (.clear x :: ops)
  | emit {tag e ops} (htag : Γ.Resumes m finals tag) (he : ∀ y ∈ e.writes, Γ.Free y)
      (hops : Laid m finals ops) : Laid m finals (.setState tag :: .yield e :: ops)
  | jump {tag ops} (htag : Γ.Leads m finals tag) (hops : Laid m finals ops) :
    Laid m finals (.jump tag :: ops)
  | finish {ops} (hops : Laid m finals ops) : Laid m finals (.finish :: ops)
  | cond {test yes no ops} (htest : ∀ y ∈ test.writes, Γ.Free y) (hyes : Laid m finals yes)
      (hno : Laid m finals no) (hops : Laid m finals ops) : Laid m finals (.cond test yes no :: ops)
  | switch {e arms ops} (he : ∀ y ∈ e.writes, Γ.Free y)
      (harms : ∀ arm ∈ arms, (∀ y ∈ writesOf arm.labels, Γ.Free y) ∧ Γ.Leads m finals arm.target)
      (hops : Laid m finals ops) : Laid m finals (.switch e arms :: ops)
  | synchronized {e body ops} (he : ∀ y ∈ e.writes, Γ.Free y) (hbody : Laid m finals body)
      (hops : Laid m finals ops) : Laid m finals (.synchronized e body :: ops)
  | route {tag ops rest} (hroute : Γ.Route m finals tag ops) (hrest : Laid m finals rest) :
    Laid m finals (ops ++ rest)
  /-- the way into a guard -/
  | enter {G : Site} {ops} (hG : G ∈ Γ.sites) (hm : G.outer = m) (hfinals : G.finals = finals)
      (hops : Laid m finals ops) : Laid m finals (G.reset ++ .jump G.tag :: ops)
  /-- the end of the final code of a guard -/
  | settle {G : Site} {routes ops} (hG : G ∈ Γ.sites) (hm : G.outer = m)
    (hfinals : finals = G.id :: G.finals)
      (hroutes : Γ.Routes m G.finals G.fields.pendingJump G.exits routes)
      (hend : Γ.Resumes m G.finals G.endTag) (hops : Laid m finals ops) :
      Laid m finals (.rethrow G.fields.pending :: routes ++ .jump G.endTag :: ops)

/-- The ops may make up a state of the machine with that zone. -/
inductive LaidAt : MachineId → Zone → List Op → Prop where
  | code {m finals ops} (hops : Γ.Laid m finals ops) : LaidAt m (.code finals) ops
  /-- a state that asks an iterator again on every resume -/
  | poll {m finals x ops} (hops : Γ.Laid m finals ops) : LaidAt m (.code finals)
        (.cond (Part.callOn x "hasNext") [.yield (Part.callOn x "next")] [] :: ops)
  | final {G : Site} (hG : G ∈ Γ.sites) (hops : Γ.Laid G.outer (G.id :: G.finals) G.final) :
      LaidAt G.outer (.final G.id G.finals) G.final
  | first {G : Site} {rs : List (SymbolId × Option Expr)} {ops} (hG : G ∈ Γ.sites)
      (hrs : ∀ r ∈ rs, r.1 ∈ G.fields.resources ∧ ∀ y ∈ writesOf? r.2, Γ.Free y)
      (hops : Γ.Laid G.id [] ops) : LaidAt G.id .first (initOps rs ++ ops)
  | guard {G : Site} (hG : G ∈ Γ.sites) (hlength : G.zones.length = G.machine.states.length)
      (hstates : ∀ (place : Nat) (z : Zone) (state : MachineState), G.zones[place]? = some z →
        G.machine.states[place]? = some state → LaidAt G.id z state.ops) :
      LaidAt G.outer (.guard G.id G.finals) [.guarded G.machine G.fields, .jump G.finalTag]

/-! ## Code -/

variable {Γ} {m : MachineId} {finals : List MachineId}

theorem Resumes.leads {tag : Tag} (h : Γ.Resumes m finals tag) : Γ.Leads m finals tag := by
  obtain ⟨place, htarget, howner, hstands⟩ := h
  exact ⟨place, finals, htarget, howner, hstands, suffix_refl finals⟩

theorem Leads.weaken {finals' : List MachineId} {tag : Tag} (h : Γ.Leads m finals tag)
    (hsuffix : finals <:+ finals') : Γ.Leads m finals' tag := by
  obtain ⟨place, finals₀, htarget, howner, hstands, hfinals⟩ := h
  exact ⟨place, finals₀, htarget, howner, hstands, hfinals.trans hsuffix⟩

theorem Laid.append {ops more : List Op} (h : Γ.Laid m finals ops) (hmore : Γ.Laid m finals more) :
    Γ.Laid m finals (ops ++ more) := by
  induction h with
  | nil => exact hmore
  | plain hs _ ih => exact .plain hs ih
  | assign hx he _ ih => exact .assign hx he ih
  | clear hx _ ih => exact .clear hx ih
  | emit htag he _ ih => exact .emit htag he ih
  | jump htag _ ih => exact .jump htag ih
  | finish _ ih => exact .finish ih
  | cond htest hyes hno _ _ _ ih => exact .cond htest hyes hno ih
  | switch he harms _ ih => exact .switch he harms ih
  | synchronized he hbody _ _ ih => exact .synchronized he hbody ih
  | route hroute _ ih =>
    rw [List.append_assoc]
    exact .route hroute ih
  | enter hG hm hfinals _ ih =>
    rw [List.append_assoc]
    exact .enter hG hm hfinals ih
  | settle hG hm hfinals hroutes hend _ ih =>
    rw [List.append_assoc]
    exact .settle hG hm hfinals hroutes hend ih

theorem laid_clears {xs : List SymbolId} (h : ∀ x ∈ xs, Γ.Free x) :
    Γ.Laid m finals (xs.map Op.clear) := by
  induction xs with
  | nil => exact .nil
  | cons x xs ih => exact .clear (h x mem_cons_self) (ih fun y hy => h y (mem_cons_of_mem _ hy))

theorem laid_sealing {cur : List Op} {op : Op} (h : Γ.Laid m finals [op]) :
    Γ.Laid m finals (Code.sealing cur op) := by
  unfold Code.sealing
  split
  · exact .nil
  · exact h

theorem LaidAt.append {ops more : List Op} (h : Γ.LaidAt m (.code finals) ops)
    (hmore : Γ.Laid m finals more) : Γ.LaidAt m (.code finals) (ops ++ more) := by
  cases h with
  | code hops => exact .code (hops.append hmore)
  | poll hops => exact .poll (hops.append hmore)

/-- Code is laid out: its ops stand in a state in that final code, each of its states has a zone,
and the last one is in the same final code again. -/
structure LaidCode (Γ : Plan) (m : MachineId) (finals : List MachineId) (zones : List Zone)
    (c : Code) : Prop where
  ops : Γ.Laid m finals c.ops
  states : List.Forall₂ (Γ.LaidAt m) zones c.states
  last : ∀ z, zones.getLast? = some z → z = .code finals

theorem LaidCode.now {ops : List Op} (h : Γ.Laid m finals ops) :
    Γ.LaidCode m finals [] (.now ops) :=
  ⟨h, .nil, fun z hz => by cases hz⟩

theorem LaidCode.opened : Γ.LaidCode m finals [.code finals] .opened :=
  ⟨.nil, .cons (.code .nil) .nil, fun z hz => by cases hz; rfl⟩

/-- States stay laid out when the last one takes more ops. -/
theorem laid_extend {zs zs' : List Zone} {z : Zone} {s : List Op} {ss : List (List Op)} {b : Code}
    (h : List.Forall₂ (Γ.LaidAt m) (z :: zs) (s :: ss))
    (hlast : ∀ z', (z :: zs).getLast? = some z' → z' = .code finals)
    (hb : Γ.LaidCode m finals zs' b) :
    List.Forall₂ (Γ.LaidAt m) (z :: zs ++ zs')
      ((Code.extend s ss b).ops :: (Code.extend s ss b).states) := by
  induction ss generalizing z zs s with
  | nil =>
    obtain ⟨hs, hnil⟩ := List.forall₂_cons.mp h
    cases hnil
    obtain rfl := hlast z rfl
    exact .cons (hs.append hb.ops) hb.states
  | cons s' ss ih =>
    obtain ⟨hs, hss⟩ := List.forall₂_cons.mp h
    cases hss with
    | @cons z' _ zs _ hs' hss =>
      refine .cons hs (ih (.cons hs' hss) fun y hy => hlast y ?_)
      rw [getLast?_cons_cons]
      exact hy

theorem LaidCode.append {zs zs' : List Zone} {a b : Code} (ha : Γ.LaidCode m finals zs a)
    (hb : Γ.LaidCode m finals zs' b) : Γ.LaidCode m finals (zs ++ zs') (a ++ b) := by
  have hlast : ∀ z, (zs ++ zs').getLast? = some z → z = .code finals := by
    intro z hz
    rw [getLast?_append] at hz
    rcases Option.or_eq_some_iff.mp hz with hz | ⟨_, hz⟩
    · exact hb.last z hz
    · exact ha.last z hz
  obtain ⟨ops, ss⟩ := a
  obtain ⟨hops, hstates, hend⟩ := ha
  cases hstates with
  | nil => exact ⟨hops.append hb.ops, hb.states, hb.last⟩
  | cons hs hss => exact ⟨hops, laid_extend (.cons hs hss) hend hb, hlast⟩

theorem LaidCode.sealed {zs : List Zone} {cur : List Op} {c : Code} {op : Op}
    (h : Γ.LaidCode m finals zs c) (hop : Γ.Laid m finals [op]) :
    Γ.LaidCode m finals zs (c.sealed cur op) := by
  have hseal : Γ.Laid m finals (Code.sealing (c.stop cur) op) := laid_sealing hop
  have happend := h.append (.now hseal)
  rwa [List.append_nil] at happend

/-- The states have the zones, one by one. -/
structure Tiles (Γ : Plan) (m : MachineId) (zones : List Zone) (states : List MachineState) :
    Prop where
  length : zones.length = states.length
  laid : ∀ (place : Nat) (z : Zone) (state : MachineState), zones[place]? = some z →
    states[place]? = some state → Γ.LaidAt m z state.ops

theorem length_numbered (n : Nat) (ss : List (List Op)) : (numbered n ss).length = ss.length := by
  induction ss generalizing n with
  | nil => rfl
  | cons s ss ih => exact congrArg Nat.succ (ih (n + 1))

/-- The machine of code that is laid out is laid out. -/
theorem tiles_of_code {z : Zone} {zs : List Zone} {c : Code} (hops : Γ.LaidAt m z c.ops)
    (hstates : List.Forall₂ (Γ.LaidAt m) zs c.states) (id : MachineId) (selector : SymbolId) :
    Γ.Tiles m (z :: zs) (c.machine id selector).states := by
  have hall : List.Forall₂ (Γ.LaidAt m) (z :: zs) (c.ops :: c.states) := .cons hops hstates
  refine ⟨hall.length_eq.trans (length_numbered 1 _).symm, fun place z state hz hstate => ?_⟩
  have hnumbered : (numbered 1 (c.ops :: c.states))[place]? = some state := hstate
  rw [getElem?_numbered] at hnumbered
  obtain ⟨ops, hops, rfl⟩ := Option.map_eq_some_iff.mp hnumbered
  obtain ⟨hi, rfl⟩ := List.getElem?_eq_some_iff.mp hz
  obtain ⟨hj, rfl⟩ := List.getElem?_eq_some_iff.mp hops
  exact hall.get hi hj

end Plan

end Lowering

end Resumable
