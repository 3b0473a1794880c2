import Resumable.Proofs.Code

/-!
# What lowering keeps

Making code only adds to the ledger: new variables, tags and fields are added behind the old ones,
open tags are given states, and the machine at hand stays the same.

* `TagTable.Extends`, `SymbolTable.Extends` and `Ledger.Grows` say what stays;
* `Made.grows` is the statement for code of every phrase, by induction on the rules;
* `Made.size_eq` counts the states.
-/

namespace Resumable

open List

/-! ## Tags -/

namespace TagTable

variable {state : StateId} {tag : Tag} {t t' : TagTable}

/-- All tags are still there, with their owners and states. -/
def Extends (t t' : TagTable) : Prop :=
  ∀ (i : Nat) (slot : TagSlot), t.slots[i]? = some slot →
    ∃ slot' : TagSlot, t'.slots[i]? = some slot' ∧ slot'.owner = slot.owner ∧
      ∀ state, slot.target = some state → slot'.target = some state

theorem Extends.refl (t : TagTable) : t.Extends t :=
  fun _ slot h => ⟨slot, h, rfl, fun _ hs => hs⟩

theorem Extends.trans {t₁ t₂ t₃ : TagTable} (h : t₁.Extends t₂) (h' : t₂.Extends t₃) :
    t₁.Extends t₃ := by
  intro i slot hslot
  obtain ⟨slot₂, hslot₂, howner, htarget⟩ := h i slot hslot
  obtain ⟨slot₃, hslot₃, howner', htarget'⟩ := h' i slot₂ hslot₂
  exact ⟨slot₃, hslot₃, howner'.trans howner, fun state hs => htarget' state (htarget state hs)⟩

theorem Extends.size_le (h : t.Extends t') : t.size ≤ t'.size := by
  refine Nat.not_lt.mp fun hlt => ?_
  have hlast : t'.size < t.slots.size := hlt
  obtain ⟨slot, hslot, _⟩ := h t'.size t.slots[t'.size] (Array.getElem?_eq_getElem hlast)
  rw [show t'.size = t'.slots.size from rfl, Array.getElem?_eq_none (Nat.le_refl _)] at hslot
  cases hslot

/-- A tag that is there belongs to the same machine later. -/
theorem Extends.owner_eq (h : t.Extends t') (htag : tag.index < t.size) :
    t'.owner tag = t.owner tag := by
  have hslot : t.slots[tag.index]? = some t.slots[tag.index] := Array.getElem?_eq_getElem htag
  obtain ⟨slot', hslot', howner, _⟩ := h _ _ hslot
  rw [owner, owner, hslot, hslot', Option.map_some, Option.map_some, howner]

/-- A tag keeps its state. -/
theorem Extends.target_eq (h : t.Extends t') (htag : t.target? tag = some state) :
    t'.target? tag = some state := by
  unfold target? at htag ⊢
  obtain ⟨slot, hslot, hstate⟩ := Option.bind_eq_some_iff.mp htag
  obtain ⟨slot', hslot', _, htarget⟩ := h _ _ hslot
  rw [hslot']
  exact htarget state hstate

theorem reserve_extends (t : TagTable) (owner : MachineId) (n : Nat) :
    t.Extends (t.reserve owner n) := by
  intro i slot hslot
  have hi : i < t.slots.size := (Array.getElem?_eq_some_iff.mp hslot).1
  refine ⟨slot, ?_, rfl, fun _ hs => hs⟩
  rw [reserve, Array.getElem?_append_left hi, hslot]

/-- What giving a tag its state changes. -/
theorem resolve_ok (h : t.resolve tag state = .ok t') :
    ∃ owner, t.slots[tag.index]? = some ⟨owner, none⟩ ∧
      t' = ⟨t.slots.setIfInBounds tag.index ⟨owner, some state⟩⟩ := by
  unfold resolve at h
  split at h
  · cases h
  · cases h
  · next owner hslot =>
    cases h
    exact ⟨owner, hslot, rfl⟩

theorem resolve_extends (h : t.resolve tag state = .ok t') : t.Extends t' := by
  obtain ⟨owner, hopen, rfl⟩ := resolve_ok h
  intro i slot hslot
  have hi : i < t.slots.size := (Array.getElem?_eq_some_iff.mp hslot).1
  rw [Array.getElem?_setIfInBounds]
  by_cases hindex : tag.index = i
  · rw [if_pos hindex, if_pos (hindex ▸ hi)]
    rw [hindex, hslot] at hopen
    cases hopen
    exact ⟨_, rfl, rfl, fun _ hs => nomatch hs⟩
  · rw [if_neg hindex]
    exact ⟨slot, hslot, rfl, fun _ hs => hs⟩

end TagTable

/-! ## Variables and fields -/

namespace SymbolTable

/-- All variables are still there. -/
def Extends (t t' : SymbolTable) : Prop :=
  ∀ (i : Nat) (info : SymbolInfo), t.symbols[i]? = some info → t'.symbols[i]? = some info

theorem Extends.refl (t : SymbolTable) : t.Extends t := fun _ _ h => h

theorem Extends.trans {t₁ t₂ t₃ : SymbolTable} (h : t₁.Extends t₂) (h' : t₂.Extends t₃) :
    t₁.Extends t₃ := fun i info hi => h' i info (h i info hi)

theorem declare_extends (t : SymbolTable) (name : String) (type : TypeRef) (kind : SymbolKind) :
    t.Extends (t.declare name type kind).2 := by
  intro i info h
  have hi : i < t.symbols.size := (Array.getElem?_eq_some_iff.mp h).1
  show (t.symbols.push _)[i]? = some info
  rw [Array.getElem?_push, if_neg (Nat.ne_of_lt hi), h]

theorem Extends.size_le {t t' : SymbolTable} (h : t.Extends t') : t.size ≤ t'.size := by
  refine Nat.not_lt.mp fun hlt => ?_
  have hlast : t'.size < t.symbols.size := hlt
  have hinfo := h t'.size t.symbols[t'.size] (Array.getElem?_eq_getElem hlast)
  have hnone : t'.symbols[t'.size]? = none := Array.getElem?_eq_none (Nat.le_refl _)
  rw [hnone] at hinfo
  cases hinfo

@[simp] theorem size_declare (t : SymbolTable) (name : String) (type : TypeRef)
    (kind : SymbolKind) : (t.declare name type kind).2.size = t.size + 1 := Array.size_push ..

end SymbolTable

namespace CaptureSet

/-- Entries are found by their keys, wherever they were put in. -/
theorem lookup_insertEntry (key x : SymbolId) (c : Capture) (fields : List (SymbolId × Capture)) :
    (insertEntry key c fields).lookup x = if x = key then some c else fields.lookup x := by
  induction fields with
  | nil =>
    by_cases h : x = key
    · simp [insertEntry, h]
    · simp [insertEntry, lookup_cons, beq_eq_false_iff_ne.mpr h, h]
  | cons entry fields ih =>
    obtain ⟨k, d⟩ := entry
    unfold insertEntry
    by_cases hx : x = key
    · rw [if_pos hx]
      split
      · simp [hx]
      · split
        · simp [hx]
        · next hk =>
          subst hx
          rw [lookup_cons, beq_eq_false_iff_ne.mpr hk, ih, if_pos rfl]
    · rw [if_neg hx]
      split
      · rw [lookup_cons, beq_eq_false_iff_ne.mpr hx]
      · split
        · next hk => rw [lookup_cons, lookup_cons, ← hk, beq_eq_false_iff_ne.mpr hx]
        · rw [lookup_cons, lookup_cons, ih, if_neg hx]

theorem contains_insert (s : CaptureSet) (c : Capture) (x : SymbolId) :
    (s.insert c).contains x = (x == c.symbol || s.contains x) := by
  rw [contains, contains, get?, get?, insert, lookup_insertEntry]
  by_cases h : x = c.symbol
  · simp [h]
  · simp [h]

end CaptureSet

namespace Lowering

open Ledger

variable {ctx : Context} {L L' : Ledger} {a b cur ops : List Op}

/-! ## Ledgers -/

/-- All that is known in the ledger is still known, of the same machine and in the same scopes. -/
structure Ledger.Grows (L L' : Ledger) : Prop where
  machine : L'.machine = L.machine
  selector : L'.selector = L.selector
  pendingJump : L'.pendingJump = L.pendingJump
  scopeBase : L'.scopeBase = L.scopeBase
  scopes : ∃ new : List SymbolId, L'.scopes = L.scopes.modifyHead (new ++ ·)
  tags : L.tags.Extends L'.tags
  symbols : L.symbols.Extends L'.symbols
  captures : ∀ x, L.captures.contains x → L'.captures.contains x
  nextMachine : L.nextMachine ≤ L'.nextMachine
  exits : L.exits ⊆ L'.exits

namespace Ledger

variable {ctx : Context} {L L' : Ledger} {ops : List Op} {tags : List Tag} {field : SymbolId}
  {tag : Tag}

theorem Grows.refl (L : Ledger) : L.Grows L where
  machine := rfl
  selector := rfl
  pendingJump := rfl
  scopeBase := rfl
  scopes := ⟨[], by cases L.scopes with | nil => rfl | cons s ss => rfl⟩
  tags := .refl _
  symbols := .refl _
  captures := fun _ h => h
  nextMachine := Nat.le_refl _
  exits := fun _ h => h

theorem Grows.trans {L₁ L₂ L₃ : Ledger} (h : L₁.Grows L₂) (h' : L₂.Grows L₃) : L₁.Grows L₃ where
  machine := h'.machine.trans h.machine
  selector := h'.selector.trans h.selector
  pendingJump := h'.pendingJump.trans h.pendingJump
  scopeBase := h'.scopeBase.trans h.scopeBase
  scopes := by
    obtain ⟨new, hnew⟩ := h.scopes
    obtain ⟨more, hmore⟩ := h'.scopes
    refine ⟨more ++ new, ?_⟩
    rw [hmore, hnew]
    cases L₁.scopes with
    | nil => rfl
    | cons => simp
  tags := h.tags.trans h'.tags
  symbols := h.symbols.trans h'.symbols
  captures := fun x hx => h'.captures x (h.captures x hx)
  nextMachine := Nat.le_trans h.nextMachine h'.nextMachine
  exits := fun _ ht => h'.exits (h.exits ht)

/-- The scopes around the innermost one stay as they are. -/
theorem Grows.scopes_tail (h : L.Grows L') : L'.scopes.tail = L.scopes.tail := by
  obtain ⟨new, hnew⟩ := h.scopes
  rw [hnew]
  cases L.scopes with
  | nil | cons => rfl

theorem reserve_grows (L : Ledger) (n : Nat) : L.Grows (L.reserve n) :=
  { Grows.refl L with tags := L.tags.reserve_extends L.machine n }

theorem capture_grows (L : Ledger) (symbol : SymbolId) (type : TypeRef) (origin : CaptureOrigin)
    (liveness : Liveness) : L.Grows (L.capture symbol type origin liveness) :=
  { Grows.refl L with
    captures := fun x hx => by
      rw [capture, CaptureSet.contains_insert, hx, Bool.or_true] }

theorem newSymbol_grows (L : Ledger) (name : String) (type : TypeRef) :
    L.Grows (L.newSymbol name type) :=
  { Grows.refl L with symbols := L.symbols.declare_extends name type .synthetic }

theorem newField_grows (L : Ledger) (ctx : Context) (name : String) (type : TypeRef)
    (origin : CaptureOrigin) : L.Grows (L.newField ctx name type origin) :=
  (L.newSymbol_grows name type).trans (capture_grows ..)

theorem dropAtScopeEnd_grows (L : Ledger) (symbol : SymbolId) :
    L.Grows (L.dropAtScopeEnd symbol) := by
  unfold dropAtScopeEnd
  split
  · next scope scopes hscopes =>
      exact { Grows.refl L with scopes := ⟨[symbol], by rw [hscopes]; rfl⟩ }
  · exact .refl L

theorem dropIfCleared_grows (L : Ledger) (ctx : Context) (symbol : SymbolId) (type : TypeRef) :
    L.Grows (L.dropIfCleared ctx symbol type) := by
  unfold dropIfCleared
  split
  · exact L.dropAtScopeEnd_grows symbol
  · exact .refl L

theorem captureLocal_grows (L : Ledger) (ctx : Context) (symbol : SymbolId) (type : TypeRef) :
    L.Grows (L.captureLocal ctx symbol type) :=
  (L.capture_grows symbol type _ _).trans (dropIfCleared_grows ..)

theorem captureResources_grows (L : Ledger) (resources : List (SymbolId × TypeRef)) :
    L.Grows (L.captureResources resources) := by
  induction resources generalizing L with
  | nil => exact .refl L
  | cons r resources ih => exact (L.capture_grows r.1 r.2 _ _).trans (ih _)

theorem declareGuard_grows (L : Ledger) (ctx : Context) (resources : List (SymbolId × TypeRef)) :
    L.Grows (L.declareGuard ctx resources) := by
  have hmachine : L.Grows { L with nextMachine := L.nextMachine + 1 } :=
    { Grows.refl L with nextMachine := Nat.le_succ _ }
  exact ((((((hmachine.trans (newField_grows ..)).trans (newField_grows ..)).trans
    (newSymbol_grows ..)).trans (capture_grows ..)).trans (newField_grows ..)).trans
    (captureResources_grows ..))

/-- What opening a state changes. -/
theorem enter_ok (h : L.enter tag = .ok L') : ∃ tags, L.tags.resolve tag ⟨L.size + 1⟩ = .ok tags ∧
      L' = { L with tags := tags, size := L.size + 1 } := by
  unfold enter at h
  cases htags : L.tags.resolve tag ⟨L.size + 1⟩ with
  | error =>
    rw [htags] at h
    cases h
  | ok tags =>
    rw [htags] at h
    cases h
    exact ⟨tags, rfl, rfl⟩

theorem enter_grows (h : L.enter tag = .ok L') : L.Grows L' := by
  obtain ⟨tags, htags, rfl⟩ := enter_ok h
  exact { Grows.refl L with tags := TagTable.resolve_extends htags }

/-- The tags are entered one after the other. -/
theorem enterAll_ok (h : L.enterAll (tag :: tags) = .ok L') :
    ∃ L₁, L.enter tag = .ok L₁ ∧ L₁.enterAll tags = .ok L' := by
  unfold enterAll at h
  cases htag : L.enter tag with
  | error =>
    rw [htag] at h
    cases h
  | ok L₁ =>
    rw [htag] at h
    exact ⟨L₁, rfl, h⟩

theorem enterAll_grows (h : L.enterAll tags = .ok L') : L.Grows L' := by
  induction tags generalizing L with
  | nil =>
    cases h
    exact .refl _
  | cons tag tags ih =>
    obtain ⟨L₁, henter, hrest⟩ := enterAll_ok h
    exact (enter_grows henter).trans (ih hrest)

theorem size_enter (h : L.enter tag = .ok L') : L'.size = L.size + 1 := by
  obtain ⟨tags, _, rfl⟩ := enter_ok h
  rfl

theorem size_enterAll (h : L.enterAll tags = .ok L') : L'.size = L.size + tags.length := by
  induction tags generalizing L with
  | nil =>
    cases h
    rfl
  | cons tag tags ih =>
    obtain ⟨L₁, henter, hrest⟩ := enterAll_ok h
    rw [ih hrest, size_enter henter, length_cons]
    omega

@[simp] theorem size_reserve (L : Ledger) (n : Nat) : (L.reserve n).size = L.size := rfl

@[simp] theorem size_newField (L : Ledger) (ctx : Context) (name : String) (type : TypeRef)
    (origin : CaptureOrigin) : (L.newField ctx name type origin).size = L.size := rfl

@[simp] theorem size_dropIfCleared (L : Ledger) (ctx : Context) (symbol : SymbolId)
    (type : TypeRef) : (L.dropIfCleared ctx symbol type).size = L.size := by
  unfold dropIfCleared dropAtScopeEnd
  split
  · split
    · rfl
    · rfl
  · rfl

@[simp] theorem size_captureLocal (L : Ledger) (ctx : Context) (symbol : SymbolId)
    (type : TypeRef) : (L.captureLocal ctx symbol type).size = L.size := size_dropIfCleared ..

@[simp] theorem size_captureResources (L : Ledger) (resources : List (SymbolId × TypeRef)) :
    (L.captureResources resources).size = L.size := by
  induction resources generalizing L with
  | nil => rfl
  | cons r resources ih => exact ih _

@[simp] theorem size_declareGuard (L : Ledger) (ctx : Context)
    (resources : List (SymbolId × TypeRef)) :
    (L.declareGuard ctx resources).size = L.size := size_captureResources ..

/-- A transfer adds to the exits only. -/
theorem route_ok (h : L.route ctx tag = .ok (ops, L')) :
    ∃ exits, L.exits ⊆ exits ∧ L' = { L with exits := exits } := by
  unfold route at h
  split at h
  · cases h
    exact ⟨_, Subset.refl _, rfl⟩
  · split at h
    · cases h
    · cases h
      refine ⟨_, ?_, rfl⟩
      split
      · exact Subset.refl _
      · exact subset_append_left ..

theorem route_grows (h : L.route ctx tag = .ok (ops, L')) : L.Grows L' := by
  obtain ⟨exits, hexits, rfl⟩ := route_ok h
  exact { Grows.refl L with exits := hexits }

/-- Each tag has a choice of its own. -/
theorem routeAll_ok (h : L.routeAll ctx field (tag :: tags) = .ok (ops, L')) :
    ∃ first L₁ more, L.route ctx tag = .ok (first, L₁) ∧
      L₁.routeAll ctx field tags = .ok (more, L') ∧
      ops = .cond (.binary .eq (.ident (L₁.symbols.ident field)) (.int (Int64.ofNat tag.index)))
        first [] :: more := by
  unfold routeAll at h
  cases hroute : L.route ctx tag with
  | error =>
    rw [hroute] at h
    cases h
  | ok r =>
    obtain ⟨first, L₁⟩ := r
    rw [hroute] at h
    cases hrest : L₁.routeAll ctx field tags with
    | error =>
      simp only [bind, Except.bind, hrest] at h
      cases h
    | ok r' =>
      obtain ⟨more, L₂⟩ := r'
      simp only [bind, Except.bind, hrest] at h
      cases h
      exact ⟨first, L₁, more, rfl, hrest, rfl⟩

theorem routeAll_exits (h : L.routeAll ctx field tags = .ok (ops, L')) :
    ∃ exits, L.exits ⊆ exits ∧ L' = { L with exits := exits } := by
  induction tags generalizing L ops with
  | nil =>
    cases h
    exact ⟨_, Subset.refl _, rfl⟩
  | cons tag tags ih =>
    obtain ⟨first, L₁, more, hroute, hrest, _⟩ := routeAll_ok h
    obtain ⟨exits₁, hfirst, rfl⟩ := route_ok hroute
    obtain ⟨exits₂, hmore, rfl⟩ := ih hrest
    exact ⟨exits₂, Subset.trans hfirst hmore, rfl⟩

theorem routeAll_grows (h : L.routeAll ctx field tags = .ok (ops, L')) : L.Grows L' := by
  obtain ⟨exits, hexits, rfl⟩ := routeAll_exits h
  exact { Grows.refl L with exits := hexits }

/-- A nested machine adds to what the enclosing one knows. -/
theorem unnest_grows {id : MachineId} {g : GuardNames} (h : (L.nest id g).Grows L') :
    L.Grows (L'.unnest L) where
  machine := rfl
  selector := rfl
  pendingJump := rfl
  scopeBase := rfl
  scopes := h.scopes
  tags := h.tags
  symbols := h.symbols
  captures := h.captures
  nextMachine := h.nextMachine
  exits := fun _ ht => ht

/-- What a scope declares is gone behind it. -/
theorem popScope_grows (h : L.pushScope.Grows L') : L.Grows L'.popScope where
  machine := h.machine
  selector := h.selector
  pendingJump := h.pendingJump
  scopeBase := h.scopeBase
  scopes := ⟨[], by
    rw [show L'.popScope.scopes = L.scopes from h.scopes_tail]
    cases L.scopes with
    | nil => rfl
    | cons => rfl⟩
  tags := h.tags
  symbols := h.symbols
  captures := h.captures
  nextMachine := h.nextMachine
  exits := h.exits

end Ledger

/-- Settling a guard adds to the exits only. -/
theorem settleOps_exits {g : Ledger.GuardNames} {exits : List Tag}
    (h : settleOps L ctx cur g exits = .ok (ops, L')) :
    ∃ exits, L.exits ⊆ exits ∧ L' = { L with exits := exits } := by
  unfold settleOps at h
  split at h
  · cases h
    exact ⟨_, Subset.refl _, rfl⟩
  · cases hroute : L.routeAll ctx g.pendingJump exits with
    | error =>
      rw [hroute] at h
      cases h
    | ok =>
      rw [hroute] at h
      cases h
      exact routeAll_exits hroute

theorem settleOps_grows {g : Ledger.GuardNames} {exits : List Tag}
    (h : settleOps L ctx cur g exits = .ok (ops, L')) : L.Grows L' := by
  obtain ⟨_, hexits, rfl⟩ := settleOps_exits h
  exact { Grows.refl L with exits := hexits }

/-- **Making code only adds to the ledger.** -/
theorem Made.grows {p : Phrase} {code : Code} (h : Made ctx L cur p code L') : L.Grows L' := by
  induction h with
  | plain | nil | noBranch | noCases | noHandlers | noFinal => exact .refl _
  | declare => exact captureLocal_grows ..
  | emit _ _ henter => exact (reserve_grows ..).trans (enter_grows henter)
  | emitAll _ _ _ hL₁ _ henter =>
    subst hL₁
    exact ((newField_grows ..).trans (reserve_grows ..)).trans (enter_grows henter)
  | block _ _ ih | loopStmt _ _ _ ih | switch _ _ _ _ ih | labeledLoop _ _ _ _ ih
  | synchronized _ _ _ _ ih
  | branch _ ih | whileLoop _ _ ih | doWhile _ _ ih | forLoop _ _ _ ih | forEach _ _ ih
  | opening _ ih | final _ ih =>
    exact ih
  | cond _ _ _ _ ihyes ihno => exact ihyes.trans ihno
  | split _ _ _ _ _ henter ihyes ihno =>
    exact ((ihyes.trans ihno).trans (reserve_grows ..)).trans (enter_grows henter)
  | labeled _ _ _ _ henter ih | choice _ _ henter ih =>
    exact ((reserve_grows ..).trans ih).trans (enter_grows henter)
  | ret hroute | brk _ hroute | cont _ hroute => exact route_grows hroute
  | tryCatch _ _ _ hL₁ hguard _ hfinal _ hsettle hend ihinner ihcode =>
    subst hL₁
    have hentered := ((declareGuard_grows ..).trans (reserve_grows ..)).trans (enter_grows hguard)
    have hinside := (hentered.trans (unnest_grows ihinner)).trans (enter_grows hfinal)
    exact ((hinside.trans ihcode).trans (settleOps_grows hsettle)).trans (enter_grows hend)
  | cons _ _ ihfirst ihrest | counting _ _ ihfirst ihrest
  | guarded _ _ ihfirst ihrest => exact ihfirst.trans ihrest
  | scope _ ih => exact popScope_grows ih
  | each _ _ hL₁ _ _ ih =>
    subst hL₁
    exact (((newField_grows ..).trans (dropIfCleared_grows ..)).trans
      (captureLocal_grows ..)).trans ih
  | loop henter _ htail ih =>
    exact (((reserve_grows ..).trans (enter_grows henter)).trans ih).trans (enterAll_grows htail)
  | case henter _ _ ihbody ihrest => exact ((enter_grows henter).trans ihbody).trans ihrest
  | handler _ ih => exact (captureLocal_grows ..).trans ih
  | handlers _ henter _ _ ihbody ihrest =>
    exact (((reserve_grows ..).trans (enter_grows henter)).trans ihbody).trans ihrest

theorem Part.LoopShape.length_tail (shape : Part.LoopShape) (loc : Location) (L : Ledger) :
    (shape.tail loc L).length = (shape.tailTags L).length := by
  unfold tail tailTags
  split
  · rfl
  · rfl

@[simp] theorem Code.length_states_now (ops : List Op) : (Code.now ops).states.length = 0 := rfl

@[simp] theorem Code.length_states_opened : Code.opened.states.length = 1 := rfl

/-- The states of the machine at hand are those that were there and those of the code. -/
theorem Made.size_eq {p : Phrase} {code : Code} (h : Made ctx L cur p code L') :
    L'.size = L.size + code.states.length := by
  induction h with
  | plain | nil | noBranch | noCases | noHandlers | noFinal => rfl
  | declare => exact size_captureLocal ..
  | emit _ _ henter =>
    rw [size_enter henter]
    rfl
  | emitAll _ _ _ hL₁ _ henter =>
    subst hL₁
    rw [size_enter henter]
    simp
  | block _ _ ih | loopStmt _ _ _ ih | switch _ _ _ _ ih | labeledLoop _ _ _ _ ih
  | synchronized _ _ _ _ ih
  | branch _ ih | whileLoop _ _ ih | doWhile _ _ ih | forLoop _ _ _ ih | forEach _ _ ih
  | final _ ih => exact ih
  | cond _ _ _ _ ihyes ihno =>
    rw [ihno, ihyes]
    rfl
  | split _ _ _ _ _ henter ihyes ihno =>
    rw [size_enter henter, size_reserve, ihno, ihyes]
    simp
    omega
  | labeled _ _ _ _ henter ih | choice _ _ henter ih =>
    rw [size_enter henter, ih]
    simp
    omega
  | ret hroute | brk _ hroute | cont _ hroute =>
    obtain ⟨exits, -, rfl⟩ := Ledger.route_ok hroute
    rfl
  | tryCatch _ _ _ hL₁ hguard _ hfinal _ hsettle hend =>
    obtain ⟨exits, -, rfl⟩ := settleOps_exits hsettle
    subst hL₁
    have hguardSize := size_enter hguard
    have hfinalSize := size_enter hfinal
    have hendSize := size_enter hend
    simp only [Ledger.unnest, size_reserve, size_declareGuard] at hguardSize hfinalSize hendSize
    simp
    omega
  | cons _ _ ihhead ihtail =>
    rw [ihtail, ihhead, Code.length_states_append]
    omega
  | scope _ ih =>
    rw [Code.length_states_append]
    exact ih
  | counting _ _ ihinit ihloop =>
    rw [ihloop, ihinit, Code.length_states_append]
    omega
  | each _ _ hL₁ _ _ ih =>
    subst hL₁
    rw [ih]
    simp
  | loop henter _ htail ih =>
    rw [size_enterAll htail, ih, size_enter henter]
    simp [Part.LoopShape.length_tail]
    omega
  | case henter _ _ ihbody ihrest | handlers _ henter _ _ ihbody ihrest =>
    rw [ihrest, ihbody, size_enter henter]
    simp
    omega
  | opening _ ih | handler _ ih => simpa using ih
  | guarded _ _ ihbody ihhandlers =>
    rw [ihhandlers, ihbody]
    simp
    omega

/-! ## Ends of ops -/

/-- Whether control passes ops is decided by the last of them. -/
theorem endsTerminal_append (hb : b ≠ []) : endsTerminal (a ++ b) = endsTerminal b := by
  induction a with
  | nil => rfl
  | cons op a ih =>
    cases hab : a ++ b with
    | nil => exact absurd (append_eq_nil_iff.mp hab).2 hb
    | cons =>
      rw [cons_append, hab, endsTerminal, ← hab]
      exact ih

/-! ## Tags in a row -/

namespace Ledger

@[simp] theorem reserve_tagAt (L : Ledger) (m i : Nat) :
    (L.reserve m).tagAt i = L.tagAt (m + i) := by
  simp [tagAt, reserve, TagTable.reserve, TagTable.size, Nat.add_assoc]

@[simp] theorem reserve_reserve (L : Ledger) (m n : Nat) :
    (L.reserve m).reserve n = L.reserve (m + n) := by
  simp [reserve, TagTable.reserve, Array.append_assoc]

@[simp] theorem size_symbols_newField (L : Ledger) (ctx : Context) (name : String) (type : TypeRef)
    (origin : CaptureOrigin) : (L.newField ctx name type origin).symbols.size =
      L.symbols.size + 1 :=
  SymbolTable.size_declare ..

theorem nextSymbol_newSymbol (L : Ledger) (name : String) (type : TypeRef) :
    (L.newSymbol name type).nextSymbol = ⟨L.symbols.size + 1⟩ :=
  congrArg SymbolId.mk (SymbolTable.size_declare ..)

theorem nextSymbol_newField (L : Ledger) (ctx : Context) (name : String) (type : TypeRef)
    (origin : CaptureOrigin) : (L.newField ctx name type origin).nextSymbol =
      ⟨L.symbols.size + 1⟩ :=
  L.nextSymbol_newSymbol name type

theorem nextSymbol_capture (L : Ledger) (symbol : SymbolId) (type : TypeRef)
    (origin : CaptureOrigin) (liveness : Liveness) :
    (L.capture symbol type origin liveness).nextSymbol = L.nextSymbol := rfl

@[simp] theorem tagAt_declareGuard (L : Ledger) (ctx : Context)
    (resources : List (SymbolId × TypeRef)) (i : Nat) :
    (L.declareGuard ctx resources).tagAt i = L.tagAt i := by
  have hresources : ∀ (L : Ledger), (L.captureResources resources).tags = L.tags := by
    intro L
    induction resources generalizing L with
    | nil => rfl
    | cons r resources ih => exact ih _
  rw [tagAt, declareGuard, hresources]
  rfl

namespace GuardNames

theorem reset_ne_nil (g : GuardNames) (xs : List SymbolId) : g.reset xs ≠ [] := cons_ne_nil _ _

theorem endsTerminal_reset (g : GuardNames) (xs : List SymbolId) :
    endsTerminal (g.reset xs) = false := by
  cases xs with
  | nil => rfl
  | cons x xs =>
    rw [reset, map_cons, endsTerminal_append (cons_ne_nil _ _)]
    induction xs generalizing x with
    | nil => rfl
    | cons y xs ih => exact ih y

end GuardNames

@[simp] theorem reserve_zero (L : Ledger) : L.reserve 0 = L := by
  simp [reserve, TagTable.reserve]

end Ledger

/-! ## Ends of code -/

theorem sealing_append (hb : b ≠ []) (op : Op) : Code.sealing (a ++ b) op = Code.sealing b op := by
  rw [Code.sealing, Code.sealing, endsTerminal_append hb]

theorem Code.sealed_now (cur : List Op) (hops : ops ≠ []) (hterminal : endsTerminal ops = false)
    (op : Op) : (Code.now ops).sealed cur op = .now (ops ++ [op]) := by
  rw [Code.sealed, Code.stop_now, sealing_append hops, Code.sealing, hterminal]
  rfl

/-- The end of code is the end of its last piece. -/
theorem Code.sealed_append (cur : List Op) (A B : Code) (op : Op) :
    (A ++ B).sealed cur op = A ++ B.sealed (A.stop cur) op := by
  rw [Code.sealed, Code.sealed, Code.stop_append, Code.append_assoc]

theorem Code.sealed_nil (cur : List Op) (op : Op) :
    (Code.now []).sealed cur op = .now (Code.sealing cur op) := by
  rw [Code.sealed, Code.stop_now, List.append_nil]
  rfl

theorem Code.sealed_now_append (cur ops : List Op) (op : Op) (ss : List (List Op)) :
    (Code.now ops).sealed cur op ++ (⟨[], ss⟩ : Code) =
      ⟨ops ++ Code.sealing (cur ++ ops) op, ss⟩ := by
  simp [Code.sealed, Code.now]

theorem Code.opened_append (ops : List Op) (ss : List (List Op)) :
    Code.opened ++ (⟨ops, ss⟩ : Code) = ⟨[], ops :: ss⟩ := by
  simp [Code.opened]

theorem Code.mk_append_states (ops : List Op) (ss tt : List (List Op)) :
    (⟨ops, ss⟩ : Code) ++ (⟨[], tt⟩ : Code) = ⟨ops, ss ++ tt⟩ := by
  induction ss generalizing ops with
  | nil => simp
  | cons s ss ih => simp [ih]

/-! ## States in order -/

/-- Each state carries the number of its place. -/
theorem getElem?_numbered (n : Nat) (ss : List (List Op)) (i : Nat) :
    (numbered n ss)[i]? = ss[i]?.map fun ops => .mk ⟨n + i⟩ ops := by
  induction ss generalizing n i with
  | nil => rfl
  | cons s ss ih =>
    cases i with
    | zero => rfl
    | succ i =>
      rw [numbered, getElem?_cons_succ, getElem?_cons_succ, ih,
        show n + 1 + i = n + (i + 1) by omega]

end Lowering

end Resumable
