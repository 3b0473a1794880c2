import Resumable.Proofs.Placed.Branches

/-!
# The places of loops

All tags of a loop lead to states of the loop, so that its code is in place if that of its body is.
-/

namespace Resumable

open List

namespace Lowering

open Ledger Code

section Rules

variable {e test : Expr} {finals : List MachineId} {cur : List Op} {ss : List Site}
  {body : List Stmt} {cases : List SwitchCase} {exits tags : List Tag} {zs : List Zone}
  {loc : Location} {label : Option String} {shape : Part.LoopShape} {Γ : Plan} {x : SymbolId}
  {tag : Tag} {type : TypeRef} {ctx : Context} {L L' L₁ L₂ : Ledger} {code a : Code}

theorem Ledger.tagAt_known (L : Ledger) {n i : Nat} (hi : i < n) :
    (L.tagAt i).index < (L.reserve n).tags.size := by
  show L.tags.size + i < (L.tags.slots ++ Array.replicate n _).size
  rw [Array.size_append, Array.size_replicate]
  exact Nat.add_lt_add_left hi _

/-- Opening states changes tags and the number of states only. -/
theorem Ledger.enterAll_eq (h : L.enterAll tags = .ok L') :
    ∃ table size, L' = { L with tags := table, size := size } := by
  induction tags generalizing L with
  | nil =>
    cases h
    exact ⟨_, _, rfl⟩
  | cons tag tags ih =>
    obtain ⟨L₁, henter, hrest⟩ := enterAll_ok h
    obtain ⟨table, _, rfl⟩ := enter_ok henter
    obtain ⟨table', size, rfl⟩ := ih hrest
    exact ⟨_, _, rfl⟩

theorem Plan.resumes_of_enterAll (h : L.enterAll tags = .ok L') (hT : L'.tags.Extends Γ.tags)
    (hknown : ∀ t ∈ tags, t.index < L.tags.size) (howner : ∀ t ∈ tags, L.tags.owner t = L.machine)
    (hzones : Γ.Zoned L.machine L.size (List.replicate tags.length (.code finals))) :
    ∀ t ∈ tags, Γ.Resumes L.machine finals t := by
  induction tags generalizing L with
  | nil => exact nofun
  | cons tag tags ih =>
    obtain ⟨L₁, henter, hrest⟩ := enterAll_ok h
    have hgrows := enter_grows henter
    have htag : Γ.Resumes L.machine finals tag :=
      Plan.resumes_of_enter henter ((enterAll_grows hrest).tags.trans hT)
        (howner tag mem_cons_self) hzones.head
    intro t ht
    rcases mem_cons.mp ht with rfl | ht
    · exact htag
    · refine hgrows.machine ▸ ih hrest (fun t ht => ?_) (fun t ht => ?_) ?_ t ht
      · exact Nat.lt_of_lt_of_le (hknown t (mem_cons_of_mem _ ht)) hgrows.tags.size_le
      · rw [hgrows.tags.owner_eq (hknown t (mem_cons_of_mem _ ht)), hgrows.machine]
        exact howner t (mem_cons_of_mem _ ht)
      · rw [hgrows.machine, size_enter henter]
        exact hzones.tail

theorem Part.LoopShape.three_le_tagCount (shape : Part.LoopShape) : 3 ≤ shape.tagCount := by
  unfold tagCount
  split
  · exact Nat.le_refl _
  · exact Nat.le_succ _

theorem machines_tail (shape : Part.LoopShape) (loc : Location) (L : Ledger) :
    (⟨[], shape.tail loc L⟩ : Code).machines = [] := by
  have htest : machinesInOps (shape.testOps L) = [] := by
    unfold Part.LoopShape.testOps
    split
    · rfl
    · rfl
  have hupdate : machinesInOps (shape.updateOps loc L) = [] := by
    rw [Part.LoopShape.updateOps, machinesInOps_append]
    induction shape.update with
    | nil => rfl
    | cons e es ih => exact ih
  unfold Part.LoopShape.tail
  split
  · simp [Code.machines, machinesInOps, htest]
  · simp [Code.machines, machinesInOps, htest, hupdate]

/-- The states behind the body of a loop are laid out if its tags lead to them. -/
theorem laid_tail {m : MachineId} (htags : ∀ i < shape.tagCount, Γ.Resumes m finals (L.tagAt i))
    (htest : ∀ y ∈ writesOf? shape.test, Γ.Free y)
    (hupdate : ∀ y ∈ writesOf shape.update, Γ.Free y) :
    Γ.LaidCode m finals (List.replicate (shape.tailTags L).length (.code finals))
      ⟨[], shape.tail loc L⟩ := by
  have hcount := shape.three_le_tagCount
  have hbody := (htags 0 (by omega)).leads
  have hend := (htags 2 (by omega)).leads
  have htestOps : Γ.Laid m finals (shape.testOps L) := by
    unfold Part.LoopShape.testOps
    split
    · next test hsome =>
      refine .cond (fun y hy => htest y ?_) (.jump hbody .nil) .nil (.jump hend .nil)
      rw [hsome]
      exact hy
    · exact .jump hbody .nil
  have hupdateOps : Γ.Laid m finals (shape.updateOps loc L) := by
    refine Plan.Laid.append ?_ (.jump (htags 1 (by omega)).leads .nil)
    have hall : ∀ es : List Expr, (∀ e ∈ es, e ∈ shape.update) →
        Γ.Laid m finals (es.map fun e => .plain (.expr e loc)) := by
      intro es
      induction es with
      | nil => exact fun _ => .nil
      | cons e es ih =>
        intro hes
        refine .plain (fun y hy => hupdate y ?_) (ih fun e' he' => hes e' (mem_cons_of_mem _ he'))
        exact mem_writesOf.mpr ⟨e, hes e mem_cons_self, hy⟩
    exact hall shape.update fun _ he => he
  refine ⟨.nil, ?_, fun z hz => ?_⟩
  · unfold Part.LoopShape.tail Part.LoopShape.tailTags
    split
    · exact .cons (.code htestOps) (.cons (.code .nil) .nil)
    · exact .cons (.code hupdateOps) (.cons (.code htestOps) (.cons (.code .nil) .nil))
  · exact (mem_replicate.mp (mem_of_getLast? hz)).2

theorem Ledger.mem_tags (L : Ledger) (n : Nat) (t : Tag) :
    t ∈ (range n).map L.tagAt ↔ ∃ i < n, t = L.tagAt i := by
  simp [eq_comm]

namespace Part.LoopShape

variable (shape : Part.LoopShape) (L : Ledger)

/-- All tags of a loop lead to its body or to a state behind it. -/
theorem mem_loopTags (t : Tag) : t ∈ L.tagAt 0 :: shape.tailTags L ↔ ∃ i < shape.tagCount,
    t = L.tagAt i := by
  rw [← L.mem_tags]
  unfold tailTags tagCount
  by_cases hempty : shape.update.isEmpty
  · rw [if_pos hempty, if_pos hempty]
    exact Iff.rfl
  · rw [if_neg hempty, if_neg hempty]
    exact ((perm_append_singleton (L.tagAt 3) [L.tagAt 1, L.tagAt 2]).symm.cons _).mem_iff

theorem again_tag : ∃ i < shape.tagCount, shape.again L = L.tagAt i := by
  unfold again tagCount
  split
  · exact ⟨1, by omega, rfl⟩
  · exact ⟨3, by omega, rfl⟩

theorem control_tags : ∀ t ∈ (shape.control L).breakTag :: (shape.control L).continueTag.toList,
    ∃ i < shape.tagCount, t = L.tagAt i := by
  intro t ht
  rcases mem_pair.mp ht with rfl | rfl
  · exact ⟨2, shape.three_le_tagCount, rfl⟩
  · exact shape.again_tag L

end Part.LoopShape

theorem loop_places {body : Stmt} (hstart : machinesInOps shape.start = [])
    (henter : (L.reserve shape.tagCount).enter (L.tagAt 0) = .ok L₁)
    (hbody : Places (ctx.enter (shape.control L)) L₁ (.scope (.stmt body)) code L₂)
    (hgrows : L₁.Grows L₂) (hsize : L₂.size = L₁.size + code.states.length)
    (htail : L₂.enterAll (shape.tailTags L) = .ok L') :
    Places ctx L (.loop shape loc body)
      (.now (Code.sealing cur (.jump (shape.entry L))) ++ .opened ++ .now shape.start ++
        code.sealed shape.start (.jump (shape.again L)) ++ ⟨[], shape.tail loc L⟩) L' := by
  intro finals
  obtain ⟨zs, ss, hplaced⟩ := hbody finals
  have hopens := (opens_of_enter henter).of_reserve
  have hgrows₁ := hopens.grows
  have hgrows₂ := enterAll_grows htail
  obtain ⟨_, _, heq₂⟩ := enterAll_eq htail
  refine ⟨[Zone.code finals] ++ zs ++ List.replicate (shape.tailTags L).length (Zone.code finals),
    ss, ?_, ?_,
    fun Γ hfits hcovers hready hadmits => ?_⟩
  · simp [hplaced.length, Part.LoopShape.length_tail, Code.now, Code.opened]
  · have hcounted : Counted L L' _ _ _ :=
      (hplaced.counted.after_open hopens).congr rfl (by rw [heq₂])
      (Nat.le_refl _) hgrows₂.symbols.size_le
    refine hcounted.of_perm ?_
    have hseal : machinesInOps (Code.sealing cur (.jump (shape.entry L))) = [] :=
      machinesInOps_sealing rfl cur
    have hfirst : (Code.now (Code.sealing cur (.jump (shape.entry L))) ++ .opened ++
        .now shape.start).machines = [] := by
      simp [Code.machines, Code.now, Code.opened, hseal, hstart]
    have hrest : (code.sealed shape.start (.jump (shape.again L))).machines.Perm code.machines :=
      machines_sealed rfl shape.start code
    refine (machines_append _ _).trans ?_
    rw [machines_tail, List.append_nil]
    refine (machines_append _ _).trans ?_
    rw [hfirst]
    exact hrest
  · -- all tags of the loop lead to states of the loop
    have hmachine₂ : L₂.machine = L.machine := hgrows.machine.trans hgrows₁.machine
    have hknown : ∀ i < shape.tagCount, (L.tagAt i).index < L₂.tags.size := fun i hi =>
      Nat.lt_of_lt_of_le (L.tagAt_known hi) ((enter_grows henter).tags.trans hgrows.tags).size_le
    have howner₂ : ∀ i < shape.tagCount, L₂.tags.owner (L.tagAt i) = L.machine := fun i hi =>
      (((enter_grows henter).tags.trans hgrows.tags).owner_eq (L.tagAt_known hi)).trans
        (L.owner_reserve hi)
    have howner : ∀ i < shape.tagCount, Γ.tags.owner (L.tagAt i) = L.machine := fun i hi =>
      ((hgrows₂.tags.trans hcovers.tags).owner_eq (hknown i hi)).trans (howner₂ i hi)
    have hcount := shape.three_le_tagCount
    have hbodyTag : Γ.Resumes L.machine finals (L.tagAt 0) :=
      Plan.resumes_of_enter (L := L.reserve shape.tagCount) henter
        ((hgrows.tags.trans hgrows₂.tags).trans hcovers.tags) (L.owner_reserve (by omega))
        hcovers.zones.left.left.head
    have htailTags : ∀ t ∈ shape.tailTags L, Γ.Resumes L.machine finals t := by
      refine hmachine₂ ▸ Plan.resumes_of_enterAll htail hcovers.tags (fun t ht => ?_)
        (fun t ht => ?_) ?_
      · obtain ⟨i, hi, rfl⟩ := (shape.mem_loopTags L t).mp (mem_cons_of_mem _ ht)
        exact hknown i hi
      · obtain ⟨i, hi, rfl⟩ := (shape.mem_loopTags L t).mp (mem_cons_of_mem _ ht)
        rw [hmachine₂]
        exact howner₂ i hi
      · have h := hcovers.zones.right
        rw [length_append, length_singleton, hplaced.length] at h
        rw [hmachine₂, hsize, hopens.size, Nat.add_assoc]
        exact h
    have htags : ∀ i < shape.tagCount, Γ.Resumes L.machine finals (L.tagAt i) := by
      intro i hi
      rcases mem_cons.mp ((shape.mem_loopTags L _).mpr ⟨i, hi, rfl⟩) with heq | hmem
      · exact heq ▸ hbodyTag
      · exact htailTags _ hmem
    have hentry : ∃ i < shape.tagCount, shape.entry L = L.tagAt i := by
      unfold Part.LoopShape.entry
      split
      · exact ⟨1, by omega, rfl⟩
      · exact ⟨0, by omega, rfl⟩
    obtain ⟨again, hagain, hagainEq⟩ := shape.again_tag L
    obtain ⟨entry, hentry, hentryEq⟩ := hentry
    have hcontrol := shape.control_tags L
    have hfits₁ : Γ.Fits (ctx.enter (shape.control L)) L₁ finals := by
      refine (hfits.opens hopens).enter fun t ht => ?_
      obtain ⟨i, hi, rfl⟩ := hcontrol t ht
      rw [hgrows₁.machine]
      exact ⟨Nat.lt_of_lt_of_le (L.tagAt_known hi) (enter_grows henter).tags.size_le, howner i hi,
        (htags i hi).leads⟩
    have hcovers₁ : Γ.Covers L₁ L₂ zs ss :=
      (hcovers.before hgrows₂).after hgrows₁.machine hopens.size
    have hstores := hadmits.stores
    simp only [Phrase.stores, mem_append] at hstores
    have hholds := hplaced.holds Γ hfits₁ hcovers₁ trivial
        ⟨fun x hx => hstores x (.inr hx), hadmits.tries⟩
    have hjump : Γ.Laid L.machine finals [.jump (shape.again L)] := by
      rw [hagainEq]
      exact .jump (htags again hagain).leads .nil
    have hstart' : Γ.LaidCode L.machine finals []
        (.now (Code.sealing cur (.jump (shape.entry L)))) := by
      refine .now (Plan.laid_sealing ?_)
      rw [hentryEq]
      exact .jump (htags entry hentry).leads .nil
    have hbodyCode : Γ.LaidCode L.machine finals zs code := hgrows₁.machine ▸ hholds.code
    have htailCode : Γ.LaidCode L.machine finals _ ⟨[], shape.tail loc L⟩ := laid_tail htags
      (fun y hy => hstores y (.inl (.inl hy))) fun y hy => hstores y (.inl (.inr hy))
    refine ⟨(((hstart'.append .opened).append (.now hready)).append
      (hbodyCode.sealed hjump)).append htailCode,
      hholds.sites, ?_, ?_, trivial⟩
    · rw [heq₂]
      exact hholds.scopes
    · have hleaves : Γ.Leaves ctx L₁ L₂ := hholds.exits.of_enter fun t ht => by
        obtain ⟨i, hi, rfl⟩ := hcontrol t ht
        rw [hgrows₁.machine]
        exact howner i hi
      exact (hleaves.trans (.refl Γ ctx (by rw [heq₂])) hgrows.machine).after_open hopens

theorem each_places {var : LocalDecl} {iterable : Expr} {body : Stmt} {handle : Ident}
    (hx : var.name.symbol = some x)
    (hL₁ : L₁ = ((L.newField ctx "iter" type .synthetic).dropIfCleared ctx L.nextSymbol
      type).captureLocal ctx x var.type)
    (hloop : Places ctx L₁ (.loop ⟨label, true, some (Part.callOn handle "hasNext"),
      [.assign x (Part.callOn handle "next")], []⟩ loc body) code L') (hgrows' : L₁.Grows L') :
    Places ctx L (.each label var iterable loc body)
      (.now [.assign L.nextSymbol (.method iterable "iterator" [])] ++ code) L' := by
  intro finals
  obtain ⟨zs, ss, hplaced⟩ := hloop finals
  have hgrows : L.Grows L₁ := hL₁ ▸ ((L.newField_grows ..).trans (dropIfCleared_grows ..)).trans
    (captureLocal_grows ..)
  obtain ⟨_, _, heq⟩ := L.captureEach_eq ctx x type var.type
  have hL₁' := hL₁.trans heq
  refine ⟨zs, ss, hplaced.length, ?_, fun Γ hfits hcovers _ hadmits => ?_⟩
  · exact hplaced.counted.congr (by rw [hL₁']; rfl) rfl hgrows.symbols.size_le (Nat.le_refl _)
  · have hsymbols : (L.symbols.declare "iter" type .synthetic).2.Extends Γ.symbols := by
      have h := hgrows'.symbols.trans hcovers.symbols
      rw [hL₁'] at h
      exact h
    have hfree : Γ.Free L.nextSymbol := hfits.free_handle (by decide) hsymbols
    have hstores := hadmits.stores
    simp only [Phrase.stores, mem_append] at hstores
    have hvar : Γ.Free x := hstores x (.inl (.inl (by rw [hx]; exact mem_singleton_self x)))
    have hscopes : Γ.FreeScopes L₁ := hL₁ ▸ Plan.FreeScopes.captureLocal
      (Plan.FreeScopes.dropIfCleared (L := L.newField ctx "iter" type .synthetic) hfits.scopes
        hfree ctx type)
      hvar ctx var.type
    have hholds := hplaced.holds Γ (hfits.grow hgrows hscopes)
      ⟨hcovers.tags, hcovers.symbols, hcovers.sites, by rw [hL₁']; exact hcovers.zones,
        by rw [hgrows.machine]; exact hcovers.exits⟩
      (.assign hvar (forall_mem_nil _) .nil)
      ⟨fun y hy => hstores y (.inr hy), hadmits.tries⟩
    refine ⟨?_, hholds.sites, hholds.scopes, ?_, trivial⟩
    · refine Plan.LaidCode.append
        (.now (.assign hfree (fun y hy => hstores y (.inl (.inr ?_))) .nil))
        (hgrows.machine ▸ hholds.code)
      have hwrites : (Expr.method iterable "iterator" []).writes = iterable.writes ++ [] := rfl
      rwa [hwrites, List.append_nil] at hy
    · exact Plan.Leaves.trans (.refl Γ ctx (by rw [hL₁']; rfl)) hholds.exits hgrows.machine

end Rules

end Lowering

end Resumable
