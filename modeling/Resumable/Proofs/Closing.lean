import Resumable.Execution.Functions

/-!
# Closing resources

* `closeEach` closes values one after the other and collects the failures: this is what closing the
  resources of a guard comes to, apart from the fields and from where the failures go;
* closing does not look at what was added to exceptions. So it fails alike in worlds that are
  `Alike` but for that;
* `Run.closeResources_complete` says what closing the resources of a guard does.
-/

namespace Resumable

open List

/-- Closes values one after the other, and gives the failures. -/
def closeEach (h : Host) : List Value → Effect (List Value)
  | [] => pure []
  | v :: vs => do
    match ← Run.attempt (v.invoke h "close" []) with
    | .ok _ => closeEach h vs
    | .error f => do
      let failure ← f.caught
      return failure :: (← closeEach h vs)

/-- Closing the value raises no faults but those that a handler may see, in whatever world. -/
def Value.ClosesCatchably (h : Host) (v : Value) : Prop :=
  ∀ w e w', v.invoke h "close" [] w = .error e w' → ∃ f, e = .fault f ∧ f.isCatchable = true

/-! ## Fields -/

namespace Store

/-- The values of those fields that hold something, in the order of the fields. -/
def heldIn (s : Store) (xs : List SymbolId) : List Value :=
  (xs.map fun x => (s.get? x).getD .null).filter fun v => !v.isNull

theorem heldIn_cons (s : Store) (x : SymbolId) (xs : List SymbolId) : s.heldIn (x :: xs) =
    if ((s.get? x).getD .null).isNull then s.heldIn xs else (s.get? x).getD .null ::
      s.heldIn xs := by
  simp only [heldIn, map_cons, filter_cons]
  cases ((s.get? x).getD .null).isNull <;> rfl

theorem heldIn_set {x : SymbolId} {xs : List SymbolId} (hx : x ∉ xs) (s : Store) (v : Value) :
    (s.set x v).heldIn xs = s.heldIn xs := by
  refine congrArg (List.filter _) (map_congr_left fun y hy => ?_)
  have hne : y ≠ x := fun h => hx (h ▸ hy)
  rw [get?_set, if_neg hne]

end Store

/-! ## Worlds -/

namespace World

variable {w u : World}

/-- The worlds have the same exceptions, and differ at most in what was added to them. -/
def Alike (w u : World) : Prop :=
  ∃ lists, u = { w with suppressed := lists } ∧ lists.size = w.suppressed.size

theorem suppressedBy_push (h : u.suppressed = w.suppressed.push []) (e : ExceptionRef) :
    u.suppressedBy e = w.suppressedBy e := by
  rw [suppressedBy, suppressedBy, h, Array.getElem?_push]
  split
  · next he =>
    rw [he, Array.getElem?_eq_none (Nat.le_refl _)]
    rfl
  · rfl

/-- With a failure added to an exception. -/
def suppress (w : World) (p failure : ExceptionRef) : World :=
  { w with suppressed := w.suppressed.modify p.id fun failures => failures ++ [.exception failure] }

theorem Alike.suppress (h : w.Alike u) (p failure : ExceptionRef) :
    w.Alike (u.suppress p failure) := by
  obtain ⟨lists, rfl, hsize⟩ := h
  exact ⟨_, rfl, Array.size_modify.trans hsize⟩

theorem suppressedBy_suppress {p : ExceptionRef} (hp : p.id < w.suppressed.size)
    (failure e : ExceptionRef) :
    (w.suppress p failure).suppressedBy e = w.suppressedBy e ++ if p.id = e.id then
    [.exception failure] else [] := by
  simp only [suppressedBy, suppress, Array.getElem?_modify]
  by_cases h : p.id = e.id
  · rw [if_pos h, if_pos h, ← h, Array.getElem?_eq_getElem hp]
    rfl
  · rw [if_neg h, if_neg h, List.append_nil]

/-- The world in which a resource has just been closed. -/
def closing (w : World) (r : ResourceRef) : World :=
  { w with
    closed := w.closed.setIfInBounds r.id true, journal := w.journal.push ("close " ++ r.name) }

end World

theorem invoke_close (h : Host) (r : ResourceRef) (w : World) :
    Value.invoke h (.resource r) "close" [] w =
    if w.isClosed r then .ok .null w
    else if r.failsOnClose then
      .error (.fault (.thrown (.exception ⟨w.suppressed.size, "IOException",
        "failed to close " ++ r.name⟩)))
        { w.closing r with suppressed := w.suppressed.push [] }
    else .ok .null (w.closing r) := by
  show EStateM.bind (World.closeResource r) (fun _ => EStateM.pure Value.null) w = _
  unfold EStateM.bind
  have hclose : World.closeResource r w = (if w.isClosed r then pure () else (do
      modify (World.closing · r)
      if r.failsOnClose then World.raise "IOException" ("failed to close " ++ r.name)) : Effect
        Unit) w := rfl
  rw [hclose]
  cases w.isClosed r <;> cases r.failsOnClose <;> rfl

section Steps

variable {h : Host} {r : ResourceRef} {v : Value} {f : ExceptionRef} {vs : List Value}
  {w w' u u' : World}

/-- What closing a resource can come to: nothing is raised, or a new exception is. -/
theorem invoke_close_cases (h : Host) (r : ResourceRef) (hw : w.Alike u) :
    (∃ v w' u', Value.invoke h (.resource r) "close" [] w = .ok v w' ∧
        Value.invoke h (.resource r) "close" [] u = .ok v u' ∧ w'.Alike u' ∧
        u'.suppressed = u.suppressed) ∨
      ∃ f w' u', Value.invoke h (.resource r) "close" [] w = .error
        (.fault (.thrown (.exception f))) w' ∧
        Value.invoke h (.resource r) "close" [] u = .error (.fault (.thrown (.exception f))) u' ∧
        w'.Alike u' ∧
        f.id = u.suppressed.size ∧ u'.suppressed = u.suppressed.push [] := by
  obtain ⟨lists, rfl, hsize⟩ := hw
  have hsame : ({ w with suppressed := lists } : World).isClosed r = w.isClosed r := rfl
  simp only [invoke_close, hsame]
  by_cases hclosed : w.isClosed r = true
  · simp only [hclosed, if_true]
    exact .inl ⟨_, w, _, rfl, rfl, ⟨lists, rfl, hsize⟩, rfl⟩
  · simp only [hclosed]
    by_cases hfails : r.failsOnClose = true
    · simp only [hfails, if_true, hsize]
      exact .inr ⟨_, _, _, rfl, rfl, ⟨lists.push [], rfl, by simp [hsize]⟩, rfl, rfl⟩
    · simp only [hfails]
      exact .inl ⟨_, w.closing r, _, rfl, rfl, ⟨lists, rfl, hsize⟩, rfl⟩

theorem closesCatchably_resource (h : Host) (r : ResourceRef) :
    (Value.resource r).ClosesCatchably h := by
  intro w e w' hrun
  rcases invoke_close_cases h r (w := w) ⟨_, rfl, rfl⟩
    with ⟨v, w₁, _, hok, -⟩ | ⟨f, w₁, _, hfailed, -⟩
  · cases hok.symm.trans hrun
  · cases hfailed.symm.trans hrun
    exact ⟨_, rfl, rfl⟩

/-- Nothing but a resource can be closed so that a handler may see what is raised. -/
theorem Value.ClosesCatchably.resource (hv : v.ClosesCatchably h) (hnull : v.isNull = false) :
    ∃ r, v = .resource r := by
  cases v with
  | resource r => exact ⟨r, rfl⟩
  | null => cases hnull
  | _ =>
    obtain ⟨f, hf, hcatchable⟩ := hv World.empty _ _ rfl
    cases hf
    cases hcatchable

theorem closeEach_ok (hrun : Value.invoke h (.resource r) "close" [] w = .ok v w') :
    closeEach h (.resource r :: vs) w = closeEach h vs w' := by
  show EStateM.bind (Run.attempt (Value.invoke h (.resource r) "close" [])) _ w = _
  simp only [EStateM.bind, Run.attempt, hrun]

theorem closeEach_failed {es : List ExceptionRef} {w'' : World}
    (hrun : Value.invoke h (.resource r) "close" [] w = .error (.fault (.thrown (.exception f))) w')
    (hrest : closeEach h vs w' = .ok (es.map .exception) w'') :
    closeEach h (.resource r :: vs) w = .ok ((f :: es).map .exception) w'' := by
  show EStateM.bind (Run.attempt (Value.invoke h (.resource r) "close" [])) _ w = _
  simp only [EStateM.bind, Run.attempt, hrun]
  show EStateM.bind (closeEach h vs) _ w' = _
  simp only [EStateM.bind, hrest]
  rfl

namespace Run

variable {p : Option Value} {x : SymbolId} {xs : List SymbolId} {vars : Store}

theorem closeFields_null (hx : ((vars.get? x).getD .null).isNull = true) :
    closeFields h p (x :: xs) ⟨vars, u⟩ = closeFields h p xs ⟨vars.set x .null, u⟩ := by
  show (if ((vars.get? x).getD .null).isNull then _ else _ : Run (Option Value))
      ⟨vars.set x .null, u⟩ = _
  rw [if_pos hx]

/-- What follows the closing of a resource. -/
theorem closeFields_resource (hx : (vars.get? x).getD .null = .resource r) :
    closeFields h p (x :: xs) ⟨vars, u⟩ =
    match Value.invoke h (.resource r) "close" [] u with
    | .ok _ u' => closeFields h p xs ⟨vars.set x .null, u'⟩
    | .error (.fault f) u' => (do
        let failure ← f.caught
        match p with
        | some p => do
          World.addSuppressed p failure
          closeFields h (some p) xs
        | none => closeFields h (some failure) xs : Run (Option Value)) ⟨vars.set x .null, u'⟩
    | .error .outOfFuel u' => .error .outOfFuel ⟨vars.set x .null, u'⟩ := by
  show (if ((vars.get? x).getD .null).isNull then _ else _ : Run (Option Value))
      ⟨vars.set x .null, u⟩ = _
  rw [hx]
  show EStateM.bind (attempt (ofEffect (Value.invoke h (.resource r) "close" []))) _ _ = _
  simp only [EStateM.bind, attempt, ofEffect]
  rcases Value.invoke h (.resource r) "close" [] u with ⟨_, _⟩ | ⟨_ | _, _⟩ <;> rfl

/-- Fields are closed from the front, where there is a failure already or not. -/
theorem closeFields_gathers {primary : Option ExceptionRef} (hxs : xs.Nodup)
    (hclose : ∀ v ∈ vars.heldIn xs, v.ClosesCatchably h)
    (hprimary : ∀ e ∈ primary, e.id < u.suppressed.size) (hw : w.Alike u) :
    ∃ (failures : List ExceptionRef) (w' : World) (vars' : Store) (u' : World),
      closeEach h (vars.heldIn xs) w = .ok (failures.map .exception) w' ∧
      closeFields h (primary.map .exception) xs ⟨vars, u⟩ =
        .ok ((primary.or failures.head?).map .exception) ⟨vars', u'⟩ ∧
      (∀ y, vars'.get? y = if y ∈ xs then some .null else vars.get? y) ∧ w'.Alike u' ∧
      ∀ e, u'.suppressedBy e = u.suppressedBy e ++
        if (primary.or failures.head?).map ExceptionRef.id = some e.id then
          (if primary.isSome then failures else failures.tail).map .exception
        else [] := by
  induction xs generalizing vars w u primary with
  | nil => exact ⟨[], w, vars, u, rfl, by rw [head?_nil, Option.or_none]; rfl, by simp, hw, by simp⟩
  | cons x xs ih =>
    obtain ⟨hx, hxs⟩ := nodup_cons.mp hxs
    have hvars : ∀ {vars' : Store},
        (∀ y, vars'.get? y = if y ∈ xs then some .null else (vars.set x .null).get? y) →
        ∀ y, vars'.get? y = if y ∈ x :: xs then some .null else vars.get? y := by
      intro vars' hvars' y
      rw [hvars' y, Store.get?_set]
      by_cases hy : y = x <;> simp [hy]
    have hheld := vars.heldIn_cons x xs
    rw [← Store.heldIn_set hx vars .null] at hheld
    rw [hheld] at hclose ⊢
    cases hnull : ((vars.get? x).getD .null).isNull with
    | true =>
      rw [hnull, if_pos rfl] at hclose
      obtain ⟨failures, w', vars', u', heach, hrun, hget, hrest⟩ := ih hxs hclose hprimary hw
      exact ⟨failures, w', vars', u', heach, (closeFields_null hnull).trans hrun, hvars hget, hrest⟩
    | false =>
      rw [hnull, if_neg (by simp)] at hclose
      obtain ⟨hfirst, hrest⟩ := forall_mem_cons.mp hclose
      obtain ⟨r, hr⟩ := hfirst.resource hnull
      rw [hr, if_neg (by simp), closeFields_resource hr]
      rcases invoke_close_cases h r hw with ⟨v, w₁, u₁, hok, hok', halike, hsame⟩ |
        ⟨f, w₁, u₁, hfailed, hfailed', halike, hid, hnew⟩
      · obtain ⟨failures, w', vars', u', heach, hrun, hget, halike', hlists⟩ :=
          ih hxs hrest (hsame ▸ hprimary) halike
        refine ⟨failures, w', vars', u',
          (closeEach_ok hok).trans heach, by rw [hok']; exact hrun, hvars hget, halike', ?_⟩
        simpa only [World.suppressedBy, hsame] using hlists
      · have hsize : u₁.suppressed.size = u.suppressed.size + 1 := by rw [hnew, Array.size_push]
        rw [hfailed']
        cases primary with
        | none =>
          have hf : ∀ e ∈ some f, e.id < u₁.suppressed.size := by simp [hsize, hid]
          obtain ⟨failures, w', vars', u', heach, hrun, hget, halike', hlists⟩ :=
            ih hxs hrest hf halike
          refine ⟨f :: failures, w', vars', u', closeEach_failed hfailed heach, hrun, hvars hget,
            halike', fun e => ?_⟩
          rw [hlists, World.suppressedBy_push hnew]
          rfl
        | some p =>
          have hp : p.id < u₁.suppressed.size := hsize ▸ Nat.lt_succ_of_lt (hprimary p rfl)
          have hknown : ∀ e ∈ some p, e.id < (u₁.suppress p f).suppressed.size := by
            simpa [World.suppress] using hp
          obtain ⟨failures, w', vars', u', heach, hrun, hget, halike', hlists⟩ :=
            ih hxs hrest hknown (halike.suppress p f)
          refine ⟨f :: failures, w', vars', u', closeEach_failed hfailed heach, hrun, hvars hget,
            halike', fun e => ?_⟩
          rw [hlists, World.suppressedBy_suppress hp, World.suppressedBy_push hnew]
          by_cases he : p.id = e.id <;> simp [he]

end Run

end Steps

namespace Run

/-- **Closing is complete and keeps every failure.** Where the fields `xs` of a guard are distinct
and closing what they hold raises nothing but what a handler may see, every value in them is closed
once, from the last field to the first; the fields are empty afterwards, and no other variable has
changed. The result is the exception that was there already, or else the first failure to close, and
the further failures are added to it, in the order in which they happened; to no other exception
anything is added. -/
theorem closeResources_complete (h : Host) (xs : List SymbolId) (primary : Option ExceptionRef)
    (m : Memory) (hxs : xs.Nodup) (hclose : ∀ v ∈ m.vars.heldIn xs, v.ClosesCatchably h)
    (hprimary : ∀ e ∈ primary, e.id < m.world.suppressed.size) :
    ∃ (failures : List ExceptionRef) (w : World) (result : Option ExceptionRef) (m' : Memory),
      closeEach h (m.vars.heldIn xs.reverse) m.world = .ok (failures.map .exception) w ∧
      closeResources h xs (primary.map .exception) m = .ok (result.map .exception) m' ∧
      (∀ y, m'.vars.get? y = if y ∈ xs then some .null else m.vars.get? y) ∧
      (result = none ↔ primary = none ∧ failures = []) ∧ result = primary.or failures.head? ∧
      m'.world = { w with suppressed := m'.world.suppressed } ∧
      ∀ e, m'.world.suppressedBy e = m.world.suppressedBy e ++
        if result.map ExceptionRef.id = some e.id then
          (if primary.isSome then failures else failures.tail).map .exception
        else [] := by
  have hreversed : ∀ v ∈ m.vars.heldIn xs.reverse, v.ClosesCatchably h := fun v hv => hclose v (by
    simpa [Store.heldIn] using hv)
  obtain ⟨failures, w, vars', _, heach, hrun, hget, ⟨lists, rfl, -⟩, hlists⟩ :=
    closeFields_gathers (pairwise_reverse.mpr (hxs.imp Ne.symm)) hreversed hprimary ⟨_, rfl, rfl⟩
  refine ⟨failures, w, primary.or failures.head?, ⟨vars', _⟩, heach,
    hrun, by simpa using hget, ?_, rfl, rfl, hlists⟩
  cases primary <;> cases failures <;> simp

/-- Two resources that fail to be closed, and a field without a value between them, where there is
an exception. -/
def twoFailing : Memory where
  vars := ⟨[(⟨0⟩, .resource ⟨0, "a", true⟩), (⟨1⟩, .null), (⟨2⟩, .resource ⟨1, "b", true⟩)]⟩
  world := ⟨#[], #[[]], #[false, false], #[], #[]⟩

/-- The exception takes up both failures, that of the resource in the last field first. -/
theorem closeResources_complete_twoFailing :
    ∃ m', closeResources (Functions.builtins.host 0) [⟨0⟩, ⟨1⟩, ⟨2⟩]
      (some (.exception ⟨0, "E", "x"⟩)) twoFailing = .ok (some (.exception ⟨0, "E", "x"⟩)) m' ∧
    m'.vars.get? ⟨2⟩ = some .null ∧ m'.world.suppressedBy ⟨0, "E", "x"⟩ =
      [.exception ⟨1, "IOException", "failed to close b"⟩,
        .exception ⟨2, "IOException", "failed to close a"⟩] := by
  have hheld : twoFailing.vars.heldIn [⟨0⟩, ⟨1⟩, ⟨2⟩] =
      [.resource ⟨0, "a", true⟩, .resource ⟨1, "b", true⟩] := rfl
  have hclose : ∀ v ∈ twoFailing.vars.heldIn [⟨0⟩, ⟨1⟩, ⟨2⟩],
      v.ClosesCatchably (Functions.builtins.host 0) := by
    rw [hheld]
    simp [closesCatchably_resource]
  obtain ⟨failures, w, result, m', heach, hrun, hvars, -, rfl, -, hlists⟩ := closeResources_complete
    (Functions.builtins.host 0) [⟨0⟩, ⟨1⟩, ⟨2⟩] (some ⟨0, "E", "x"⟩) twoFailing (by decide) hclose
    (by simp [twoFailing])
  have hfailures : failures.map Value.exception =
      [.exception ⟨1, "IOException", "failed to close b"⟩,
        .exception ⟨2, "IOException", "failed to close a"⟩] :=
    (EStateM.Result.ok.inj heach).1.symm
  exact ⟨m', hrun, hvars ⟨2⟩, (hlists _).trans hfailures⟩

end Run

end Resumable
