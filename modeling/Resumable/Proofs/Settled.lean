import Resumable.Proofs.Built
import Resumable.Proofs.Placed

/-!
# Tags are settled

Every tag that lowering makes is given its state before lowering is through with the statement that
made it.

* `TagTable.Open` says that a tag waits for its state, and `Phrase.enters` names the tags that the
  code of a phrase gives states to without having made them;
* `Made.open_iff`: these are all the tags that code changes for good, so that a tag is open behind
  code if and only if it was open before and is not among them;
* `Made.exits_targets`: a machine leaves the enclosing one only tags that jumps can name.
-/

namespace Resumable

open List

namespace TagTable

variable {t t' : TagTable} {tag other : Tag}

/-- The tag waits for its state. -/
def Open (t : TagTable) (tag : Tag) : Prop := ∃ owner, t.slots[tag.index]? = some ⟨owner, none⟩

theorem Open.lt (h : t.Open tag) : tag.index < t.size := by
  obtain ⟨owner, hslot⟩ := h
  exact (Array.getElem?_eq_some_iff.mp hslot).1

theorem open_reserve (t : TagTable) (owner : MachineId) (n : Nat) (tag : Tag) :
    (t.reserve owner n).Open tag ↔ t.Open tag ∨ (t.size ≤ tag.index ∧ tag.index < t.size + n) := by
  unfold Open reserve size
  by_cases hlt : tag.index < t.slots.size
  · rw [Array.getElem?_append_left hlt]
    constructor
    · exact .inl
    · rintro (h | ⟨hle, -⟩)
      · exact h
      · omega
  · have hle : t.slots.size ≤ tag.index := Nat.le_of_not_lt hlt
    rw [Array.getElem?_append_right hle, Array.getElem?_replicate, Array.getElem?_eq_none hle]
    constructor
    · rintro ⟨o, ho⟩
      split at ho
      · exact .inr ⟨hle, by omega⟩
      · cases ho
    · rintro (⟨o, ho⟩ | ⟨-, hn⟩)
      · cases ho
      · exact ⟨owner, if_pos (by omega)⟩

theorem open_resolve {state : StateId} (h : t.resolve tag state = .ok t') (other : Tag) :
    t'.Open other ↔ t.Open other ∧ other ≠ tag := by
  obtain ⟨owner, hslot, rfl⟩ := resolve_ok h
  have hlt := (Array.getElem?_eq_some_iff.mp hslot).1
  unfold Open
  rw [Array.getElem?_setIfInBounds]
  by_cases heq : tag.index = other.index
  · have hsame : other = tag := by
      cases tag
      cases other
      cases heq
      rfl
    rw [if_pos heq, if_pos hlt, hsame]
    constructor
    · rintro ⟨o, ho⟩
      cases ho
    · exact fun ⟨_, hne⟩ => absurd rfl hne
  · rw [if_neg heq]
    exact ⟨fun ho => ⟨ho, fun hsame => heq (hsame ▸ rfl)⟩, And.left⟩

/-- A tag that waits can be given any state. -/
theorem Open.resolve (h : t.Open tag) (state : StateId) : ∃ t', t.resolve tag state = .ok t' := by
  obtain ⟨owner, hslot⟩ := h
  unfold TagTable.resolve
  rw [hslot]
  exact ⟨_, rfl⟩

theorem verify_of_settled (h : ∀ tag, ¬ t.Open tag) : t.verify = .ok () := by
  unfold verify
  split
  · next i hi =>
    obtain ⟨hi, hnone, -⟩ := findIdx?_eq_some_iff_getElem.mp hi
    have hlt : i < t.slots.size := by simpa using hi
    rw [Array.getElem_toList, Option.isNone_iff_eq_none] at hnone
    refine absurd ⟨t.slots[i].owner, ?_⟩ (h ⟨i⟩)
    rw [Array.getElem?_eq_getElem hlt, ← hnone]
  · rfl

theorem settled_initial (tag : Tag) : ¬ TagTable.initial.Open tag := by
  rintro ⟨owner, hslot⟩
  obtain ⟨i⟩ := tag
  cases i with
  | zero | succ => cases hslot

end TagTable

namespace Lowering

open Ledger

variable {ctx : Context} {L L' L₁ : Ledger} {cur : List Op} {p : Phrase} {code : Code} {tag : Tag}

/-! ## Open tags -/

namespace Ledger

/-- The tag waits for a state of the machine at hand or of one around it. -/
def Open (L : Ledger) (tag : Tag) : Prop := L.tags.Open tag

theorem Open.ne_tagAt (h : L.Open tag) (i : Nat) : tag ≠ L.tagAt i := by
  rintro rfl
  have hlt : L.tags.size + i < L.tags.size := TagTable.Open.lt h
  omega

/-- The tags that the ledger takes in are open. -/
theorem open_reserve (L : Ledger) (n : Nat) (tag : Tag) :
    (L.reserve n).Open tag ↔ L.Open tag ∨ ∃ i < n, tag = L.tagAt i := by
  refine (L.tags.open_reserve L.machine n tag).trans (or_congr_right ?_)
  constructor
  · rintro ⟨hle, hlt⟩
    refine ⟨tag.index - L.tags.size, by omega, ?_⟩
    obtain ⟨i⟩ := tag
    exact congrArg Tag.mk (by simp only at hle ⊢; omega)
  · rintro ⟨i, hi, rfl⟩
    exact ⟨Nat.le_add_right .., Nat.add_lt_add_left hi _⟩

theorem open_enter (h : L.enter tag = .ok L') (other : Tag) :
    L'.Open other ↔ L.Open other ∧ other ≠ tag := by
  obtain ⟨tags, hresolve, rfl⟩ := enter_ok h
  exact TagTable.open_resolve hresolve other

theorem open_enterAll {tags : List Tag} (h : L.enterAll tags = .ok L') (other : Tag) :
    L'.Open other ↔ L.Open other ∧ other ∉ tags := by
  induction tags generalizing L with
  | nil =>
    cases h
    simp
  | cons first tags ih =>
    obtain ⟨L₁, henter, hrest⟩ := enterAll_ok h
    rw [ih hrest, open_enter henter, mem_cons, not_or, and_assoc]

/-- Tags that are taken in and then given states change nothing for the others. -/
theorem open_settle {n : Nat} {tags : List Tag} (htags : ∀ t, t ∈ tags ↔ ∃ i < n, t = L.tagAt i)
    (other : Tag) : ((L.reserve n).Open other ∧ other ∉ tags) ↔ L.Open other := by
  rw [open_reserve, htags]
  constructor
  · rintro ⟨h | h, hnot⟩
    · exact h
    · exact absurd h hnot
  · exact fun h => ⟨.inl h, fun ⟨i, _, hi⟩ => h.ne_tagAt i hi⟩

theorem open_settle_one (L : Ledger) (other : Tag) :
    ((L.reserve 1).Open other ∧ other ≠ L.tagAt 0) ↔ L.Open other :=
  (and_congr_right fun _ => not_congr mem_singleton.symm).trans (open_settle (L.mem_tags 1) other)

theorem open_route {ops : List Op} (h : L.route ctx tag = .ok (ops, L')) (other : Tag) :
    L'.Open other ↔ L.Open other := by
  obtain ⟨exits, -, rfl⟩ := route_ok h
  rfl

end Ledger

/-- The tags that the code of a phrase gives states to without having made them. -/
def Phrase.enters : Phrase → List Tag
  | scope p => p.enters
  | cases _ cs => cs.map Prod.snd
  | _ => []

theorem Ledger.mem_caseTags (L : Ledger) (n : Nat) (t : Tag) :
    t ∈ L.tagAt 0 :: L.caseTags n ↔ ∃ i < n + 1, t = L.tagAt i := by
  have htags : L.tagAt 0 :: L.caseTags n = (range (n + 1)).map L.tagAt := by
    rw [range_succ_eq_map, map_cons, map_map]
    rfl
  rw [htags, L.mem_tags]

theorem snd_zip_caseTags (L : Ledger) (cases : List SwitchCase) :
    (cases.zip (L.caseTags cases.length)).map Prod.snd = L.caseTags cases.length := by
  refine map_snd_zip (Nat.le_of_eq ?_)
  unfold Ledger.caseTags
  rw [length_map, length_range]

/-- **Code settles the tags that it makes**, and those that it is to enter. -/
theorem Made.open_iff (h : Made ctx L cur p code L') (tag : Tag) :
    L'.Open tag ↔ L.Open tag ∧ tag ∉ p.enters := by
  -- a phrase that enters no tags of others has nothing to show for the second half
  have skip : ∀ {a b : Prop}, (a ↔ b) → (a ↔ b ∧ tag ∉ ([] : List Tag)) := fun h =>
    h.trans ⟨fun hb => ⟨hb, not_mem_nil⟩, And.left⟩
  have drop : ∀ {a b : Prop}, (a ↔ b ∧ tag ∉ ([] : List Tag)) → (a ↔ b) := fun h =>
    h.trans ⟨And.left, fun hb => ⟨hb, not_mem_nil⟩⟩
  induction h with
  | plain | nil | noBranch | noCases | noHandlers | noFinal => exact skip Iff.rfl
  | @declare ctx L cur d loc x =>
    obtain ⟨captures, scopes, heq⟩ := L.captureLocal_eq ctx x d.type
    rw [heq]
    exact skip Iff.rfl
  | emit _ _ henter => exact skip ((open_enter henter tag).trans (open_settle_one _ tag))
  | emitAll _ _ _ hL₁ _ henter =>
    subst hL₁
    exact skip ((open_enter henter tag).trans (open_settle_one _ tag))
  | block _ _ ih | loopStmt _ _ _ ih | switch _ _ _ _ ih | labeledLoop _ _ _ _ ih
  | synchronized _ _ _ _ ih
  | scope _ ih | branch _ ih | whileLoop _ _ ih | doWhile _ _ ih | forLoop _ _ _ ih | forEach _ _ ih
  | opening _ ih
  | final _ ih => exact ih
  | cond _ _ _ _ ihyes ihno => exact skip ((drop ihno).trans (drop ihyes))
  | split _ _ _ _ _ henter ihyes ihno =>
    exact skip (((open_enter henter tag).trans (open_settle_one _ tag)).trans
      ((drop ihno).trans (drop ihyes)))
  | labeled _ _ _ _ henter ih =>
    exact skip ((open_enter henter tag).trans
      ((and_congr_left fun _ => drop ih).trans (open_settle_one _ tag)))
  | ret hroute | brk _ hroute | cont _ hroute => exact skip (open_route hroute tag)
  | @tryCatch ctx L cur resources _ _ _ _ xs _ _ Lin _ _ _ _ L₄ _ _ _ _ _ _ hL₁ hguard _
    hfinal _ hsettle
      hend ihinner ihcode =>
    obtain ⟨exits, -, rfl⟩ := settleOps_exits hsettle
    obtain ⟨captures, heq⟩ := L.declareGuard_eq ctx (xs.zip (resources.map LocalDecl.type))
    rw [heq] at hL₁
    subst hL₁
    have hinside : (Lin.unnest _).Open tag ↔ _ := drop ihinner
    refine skip ((open_enter hend tag).trans ?_)
    refine (and_congr_left fun _ => (drop ihcode).trans ((open_enter hfinal tag).trans
      (and_congr_left fun _ => hinside.trans (open_enter hguard tag)))).trans ?_
    have hthree : ∀ t, t ∈ [L.tagAt 0, L.tagAt 1, L.tagAt 2] ↔ ∃ i < 3, t = L.tagAt i :=
      L.mem_tags 3
    refine Iff.trans ?_ (open_settle hthree tag)
    simp only [mem_cons, not_mem_nil, or_false, not_or, and_assoc]
    rfl
  | cons _ _ ihfirst ihrest | counting _ _ ihfirst ihrest | guarded _ _ ihfirst ihrest =>
    exact skip ((drop ihrest).trans (drop ihfirst))
  | @each ctx L cur label var iterable loc body x type handle code L₁ L' _ _ hL₁ _ _ ih =>
    obtain ⟨captures, scopes, heq⟩ := L.captureEach_eq ctx x type var.type
    rw [heq] at hL₁
    subst hL₁
    exact ih
  | @loop ctx L cur shape loc body L₁ code L₂ L' henter _ htail ih =>
    refine skip ((open_enterAll htail tag).trans ?_)
    refine (and_congr_left fun _ => (drop ih).trans (open_enter henter tag)).trans ?_
    refine Iff.trans ?_ (open_settle (shape.mem_loopTags L) tag)
    rw [mem_cons, not_or, and_assoc]
  | @choice ctx L cur selector cases tags code L₁ L' htags _ henter ih =>
    subst htags
    refine skip ((open_enter henter tag).trans ?_)
    refine (and_congr_left fun _ => ih).trans ?_
    refine Iff.trans ?_ (open_settle (L.mem_caseTags cases.length) tag)
    rw [Phrase.enters, snd_zip_caseTags, mem_cons, not_or, and_assoc, and_comm (a := tag ≠ _)]
  | case henter _ _ ihbody ihrest =>
    refine ihrest.trans
      ((and_congr_left fun _ => (drop ihbody).trans (open_enter henter tag)).trans ?_)
    rw [Phrase.enters, Phrase.enters, map_cons, mem_cons, not_or, and_assoc]
  | @handler ctx L cur param types body code L' _ ih =>
    obtain ⟨captures, scopes, heq⟩ := L.captureLocal_eq ctx param (CatchClause.paramTypeOf types)
    rw [heq] at ih
    exact ih
  | handlers _ henter _ _ ihbody ihrest =>
    exact skip ((drop ihrest).trans ((drop ihbody).trans
      ((open_enter henter tag).trans (open_settle_one _ tag))))

/-! ## Tags that are left to the enclosing machine -/

/-- The tags that jumps can name: those of the targets around a statement, and the end. -/
def Context.targets (ctx : Context) : List Tag := .finished :: ctx.tags

/-- All tags that jumps can name are known. -/
def Known (ctx : Context) (L : Ledger) : Prop := ∀ t ∈ ctx.targets, t.index < L.tags.size

theorem Known.grow (h : Known ctx L) (hgrows : L.Grows L₁) : Known ctx L₁ :=
  fun t ht => Nat.lt_of_lt_of_le (h t ht) hgrows.tags.size_le

variable {c : Control} {ops : List Op}

theorem Context.targets_enter {t : Tag} (h : t ∈ (ctx.enter c).targets) :
    t ∈ ctx.targets ∨ t ∈ c.breakTag :: c.continueTag.toList := by
  rcases mem_cons.mp h with rfl | h
  · exact .inl mem_cons_self
  · exact (mem_append.mp h).symm.imp_left (mem_cons_of_mem _)

/-- The tags are those of the ledger before, or of targets in a machine around the one at hand. -/
def Ledger.Passes (ctx : Context) (L : Ledger) (exits : List Tag) : Prop :=
  ∀ t ∈ exits, t ∈ L.exits ∨ (t ∈ ctx.targets ∧ L.tags.owner t ≠ L.machine)

namespace Ledger.Passes

variable {exits : List Tag}

theorem refl (ctx : Context) (L : Ledger) : L.Passes ctx L.exits := fun _ ht => .inl ht

/-- What passes later has passed before. -/
theorem trans (h : L.Passes ctx L₁.exits) (h' : L₁.Passes ctx exits) (hgrows : L.Grows L₁)
    (hknown : Known ctx L) : L.Passes ctx exits := by
  intro t ht
  rcases h' t ht with ht | ⟨ht, howner⟩
  · exact h t ht
  · rw [hgrows.tags.owner_eq (hknown t ht), hgrows.machine] at howner
    exact .inr ⟨ht, howner⟩

/-- A tag of a target in the machine at hand is never left. -/
theorem of_enter {c : Control} (h : L.Passes (ctx.enter c) exits)
    (hc : ∀ t ∈ c.breakTag :: c.continueTag.toList, L.tags.owner t = L.machine) :
    L.Passes ctx exits := by
  intro t ht
  refine (h t ht).imp_right fun ⟨htarget, howner⟩ => ⟨?_, howner⟩
  exact (Context.targets_enter htarget).resolve_right fun ht => howner (hc t ht)

end Ledger.Passes

theorem Ledger.route_passes (h : L.route ctx tag = .ok (ops, L'))
    (htag : tag ∈ ctx.targets) : L.Passes ctx L'.exits := by
  unfold Ledger.route at h
  split at h
  · cases h
    exact .refl ctx L
  · next howner =>
    split at h
    · cases h
    · cases h
      intro t ht
      by_cases hmem : L.exits.contains tag
      · exact .inl (by rwa [if_pos hmem] at ht)
      · rw [if_neg hmem] at ht
        refine (mem_append.mp ht).imp_right fun ht => ?_
        rw [mem_singleton.mp ht]
        exact ⟨htag, howner⟩

theorem Ledger.routeAll_passes {field : SymbolId} {tags : List Tag}
    (h : L.routeAll ctx field tags = .ok (ops, L')) (htags : ∀ t ∈ tags, t ∈ ctx.targets) :
    L.Passes ctx L'.exits := by
  induction tags generalizing L ops with
  | nil =>
    cases h
    exact .refl ctx _
  | cons tag tags ih =>
    obtain ⟨first, L₁, more, hroute, hrest, -⟩ := routeAll_ok h
    have hfirst := route_passes hroute (htags tag mem_cons_self)
    have hmore := ih hrest fun t ht => htags t (mem_cons_of_mem _ ht)
    obtain ⟨exits, -, rfl⟩ := route_ok hroute
    intro t ht
    rcases hmore t ht with ht | ht
    · exact hfirst t ht
    · exact .inr ht

theorem settleOps_passes {g : Ledger.GuardNames} {exits : List Tag}
    (h : settleOps L ctx cur g exits = .ok (ops, L')) (htags : ∀ t ∈ exits, t ∈ ctx.targets) :
    L.Passes ctx L'.exits := by
  unfold settleOps at h
  split at h
  · cases h
    exact .refl ctx L
  · obtain ⟨⟨more, L₁⟩, hroute, hrest⟩ := exists_of_bind_ok h
    cases hrest
    exact routeAll_passes hroute htags

theorem Ledger.exits_enter (h : L.enter tag = .ok L') : L'.exits = L.exits := by
  obtain ⟨tags, -, rfl⟩ := enter_ok h
  rfl

theorem Known.reserve {n : Nat} (h : Known ctx L)
    (hc : ∀ t ∈ c.breakTag :: c.continueTag.toList, ∃ i < n, t = L.tagAt i) :
    Known (ctx.enter c) (L.reserve n) := by
  intro t ht
  rcases Context.targets_enter ht with ht | ht
  · exact h.grow (L.reserve_grows n) t ht
  · obtain ⟨i, hi, rfl⟩ := hc t ht
    exact L.tagAt_known hi

/-- Inside a target of the machine at hand, nothing more is left than outside. -/
theorem Ledger.Passes.of_target {n : Nat} {exits : List Tag}
    (h : (L.reserve n).Passes (ctx.enter c) exits) (hc : ∀ t ∈ c.breakTag :: c.continueTag.toList,
      ∃ i < n, t = L.tagAt i) (hknown : Known ctx L) :
    L.Passes ctx exits := by
  have hbefore : L.Passes ctx (L.reserve n).exits := .refl ctx L
  refine hbefore.trans (h.of_enter fun t ht => ?_) (L.reserve_grows n) hknown
  obtain ⟨i, hi, rfl⟩ := hc t ht
  exact L.owner_reserve hi

theorem Control.tags_single {kind : ControlKind} {label : Option String} {depth n : Nat} :
    ∀ t ∈ (Control.mk kind label (L.tagAt 0) none depth).breakTag ::
      (Control.mk kind label (L.tagAt 0) none depth).continueTag.toList, ∃ i < n + 1,
        t = L.tagAt i :=
  fun _ ht => ⟨0, Nat.succ_pos n, mem_singleton.mp ht⟩

/-- **A machine leaves tags of targets around it only.** -/
theorem Made.exits_targets (h : Made ctx L cur p code L') (hknown : Known ctx L) :
    L.Passes ctx L'.exits := by
  induction h with
  | plain | nil | noBranch | noCases | noHandlers | noFinal => exact .refl _ _
  | @declare ctx L cur d loc x =>
    obtain ⟨captures, scopes, heq⟩ := L.captureLocal_eq ctx x d.type
    rw [heq]
    exact .refl ctx L
  | emit _ _ henter =>
    rw [exits_enter henter]
    exact .refl _ _
  | emitAll _ _ _ hL₁ _ henter =>
    subst hL₁
    rw [exits_enter henter]
    exact .refl _ _
  | block _ _ ih | loopStmt _ _ _ ih | switch _ _ _ _ ih | labeledLoop _ _ _ _ ih
  | synchronized _ _ _ _ ih
  | scope _ ih | branch _ ih | whileLoop _ _ ih | doWhile _ _ ih | forLoop _ _ _ ih | forEach _ _ ih
  | opening _ ih
  | final _ ih => exact ih hknown
  | cond _ _ hyes _ ihyes ihno =>
    exact (ihyes hknown).trans (ihno (hknown.grow hyes.grows)) hyes.grows hknown
  | split _ _ hyes _ _ henter ihyes ihno =>
    rw [exits_enter henter]
    exact (ihyes hknown).trans (ihno (hknown.grow hyes.grows)) hyes.grows hknown
  | labeled _ _ _ _ henter ih | choice _ _ henter ih =>
    rw [exits_enter henter]
    exact (ih (hknown.reserve Control.tags_single)).of_target Control.tags_single hknown
  | ret hroute => exact route_passes hroute mem_cons_self
  | brk htag hroute => exact route_passes hroute (mem_cons_of_mem _ (Context.breakTag_mem htag))
  | cont htag hroute => exact route_passes hroute (mem_cons_of_mem _ (Context.continueTag_mem htag))
  | @tryCatch ctx L cur resources _ _ _ _ xs _ _ Lin L₁ L₂ L₃ _ L₄ _ L₅ _ _ _ _ hL₁ hguard hinner
    hfinal hcode
      hsettle hend ihinner ihcode =>
    have hgrows₂ : L.Grows L₂ := by
      rw [hL₁] at hguard
      exact ((declareGuard_grows ..).trans (reserve_grows ..)).trans (enter_grows hguard)
    have hgrows₃ : L.Grows L₃ :=
      (hgrows₂.trans (unnest_grows hinner.grows)).trans (enter_grows hfinal)
    have hexits₃ : L₃.exits = L.exits := by
      obtain ⟨captures, heq⟩ := L.declareGuard_eq ctx (xs.zip (resources.map LocalDecl.type))
      rw [heq] at hL₁
      subst hL₁
      have hguarded := exits_enter hguard
      exact (exits_enter hfinal).trans hguarded
    have hknown₂ : Known ctx L₂ := hknown.grow hgrows₂
    have hinside : ∀ t ∈ Lin.exits, t ∈ ctx.targets := fun t ht =>
      ((ihinner hknown₂ t ht).resolve_left not_mem_nil).1
    rw [exits_enter hend]
    have hbefore : L.Passes ctx L₃.exits := hexits₃ ▸ .refl ctx L
    have hafter := (ihcode (hknown.grow hgrows₃)).trans
        (settleOps_passes hsettle hinside) hcode.grows
      (hknown.grow hgrows₃)
    exact hbefore.trans hafter hgrows₃ hknown
  | cons hfirst _ ihfirst ihrest | counting hfirst _ ihfirst ihrest
  | guarded hfirst _ ihfirst ihrest =>
    exact (ihfirst hknown).trans (ihrest (hknown.grow hfirst.grows)) hfirst.grows hknown
  | @each ctx L cur label var iterable loc body x type handle code L₁ L' _ _ hL₁ _ _ ih =>
    obtain ⟨captures, scopes, heq⟩ := L.captureEach_eq ctx x type var.type
    rw [heq] at hL₁
    subst hL₁
    exact ih hknown
  | @loop ctx L cur shape loc body L₁ code L₂ L' henter _ htail ih =>
    obtain ⟨table, size, rfl⟩ := enterAll_eq htail
    have hgrows₁ := enter_grows henter
    have hknown₁ := hknown.reserve (shape.control_tags L)
    have hbefore : (L.reserve shape.tagCount).Passes (ctx.enter (shape.control L)) L₁.exits := by
      rw [exits_enter henter]
      exact .refl _ _
    exact (hbefore.trans (ih (hknown₁.grow hgrows₁)) hgrows₁ hknown₁).of_target
      (shape.control_tags L) hknown
  | @case ctx L cur endTag labels isDefault body tag rest code more L₁ L₂ L' henter hbody _
    ihbody ihrest =>
    have hgrows₁ := enter_grows henter
    have hknown₁ := hknown.grow hgrows₁
    have hbefore : L.Passes ctx L₁.exits := exits_enter henter ▸ .refl ctx L
    have hafter := (ihbody hknown₁).trans (ihrest (hknown₁.grow hbody.grows)) hbody.grows hknown₁
    exact hbefore.trans hafter hgrows₁ hknown
  | @handler ctx L cur param types body code L' _ ih =>
    obtain ⟨captures, scopes, heq⟩ := L.captureLocal_eq ctx param (CatchClause.paramTypeOf types)
    rw [heq] at ih
    exact ih hknown
  | @handlers ctx L cur param x types body cs hs code more L₁ L₂ L' _ henter hbody _
    ihbody ihrest =>
    have hgrows₁ : L.Grows L₁ := (L.reserve_grows 1).trans (enter_grows henter)
    have hknown₁ := hknown.grow hgrows₁
    have hbefore : L.Passes ctx L₁.exits := exits_enter henter ▸ .refl ctx L
    have hafter := (ihbody hknown₁).trans (ihrest (hknown₁.grow hbody.grows)) hbody.grows hknown₁
    exact hbefore.trans hafter hgrows₁ hknown

end Lowering

end Resumable
