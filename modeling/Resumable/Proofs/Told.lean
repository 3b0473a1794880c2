import Resumable.Proofs.Alarm
import Resumable.Proofs.Sessions

/-!
# Generators tell of faults that no handler may see

* `Instance.alarms` are the faults that are raised and replaced in the next call of a generator;
* `Instance.uncatchable_told`: a call gives the fault that stands, and the generator is over;
* `Procedure.lostCall_not_told`: final code of a plain try may take the place of such a fault.
-/

namespace Resumable

open List Watched

/-! ## Generators -/

namespace Instance

/-- The alarms of the next call of a generator. -/
def alarms (g : Instance) (h : Host) (fuel : Nat) (w : World) : List Alarm :=
  if g.buffered.isSome then [] else
    (g.cls.advance.record .alarms ⟨h, g.cls.tags, fuel⟩ ⟨g.vars, w⟩).1

theorem alarms_of_keepsFaults {g : Instance} (hg : g.cls.advance.keepsFaults = true) (h : Host)
    (fuel : Nat) (w : World) (f : Fault) : .replaced f ∉ g.alarms h fuel w := by
  unfold alarms
  split
  · exact not_mem_nil
  · exact Machine.keeps _ hg _ f

/-- A call gives a fault that stands, and the generator is over. -/
theorem reply_of_standing {g g' : Instance} {c : Call} {h : Host} {fuel : Nat} {w w' : World}
    {a : Answer} (hcall : g.reply h fuel c w = .ok (a, g') w') {f : Fault}
    (hf : Alarm.Standing (g.alarms h fuel w) f) : a = .fault f ∧ g'.selector? = some .finished := by
  unfold alarms at hf
  split at hf
  · exact absurd hf not_standing_nil
  · rename_i hbuffered
    have hends := Machine.tells ⟨h, g.cls.tags, fuel⟩ g.cls.advance ⟨g.vars, w⟩ f hf
    have herase : (g.cls.advance.record .alarms ⟨h, g.cls.tags, fuel⟩ ⟨g.vars, w⟩).2 =
        g.cls.advance.exec ⟨h, g.cls.tags, fuel⟩ ⟨g.vars, w⟩ :=
      congrFun (Machine.erase_record .alarms ⟨h, g.cls.tags, fuel⟩ g.cls.advance) ⟨g.vars, w⟩
    rw [herase] at hends
    obtain ⟨r₁, g₁, hadvance, hcls, hvars, hfault⟩ :=
      advance_of_reply (Option.not_isSome_iff_eq_none.mp hbuffered) hcall
    unfold advance at hadvance
    rcases hrun : g.cls.advance.exec ⟨h, g.cls.tags, fuel⟩ ⟨g.vars, w⟩ with ⟨v, m⟩ | ⟨f' | _, m⟩
    all_goals rw [hrun] at hadvance hends
    · exact hends.elim
    · cases hends
      cases hadvance
      refine ⟨hfault f rfl, ?_⟩
      rw [selector?, hvars, hcls]
      exact (Store.get?_set ..).trans (if_pos rfl)
    · cases hadvance

/-- **Faults that no handler may see are told.** If the evaluation of an expression or a statement
raises such a fault while a generator is called, whatever tries are around it, plain or not, then
the call gives that fault and the generator is over; unless something takes the place of the fault
later on, for which there has to be a plain try with resources or final code. -/
theorem uncatchable_told (g g' : Instance) (c : Call) (h : Host) (fuel : Nat) (w w' : World)
    (a : Answer) (hcall : g.reply h fuel c w = .ok (a, g') w') (f : Fault)
    (hf : f.isCatchable = false) (before after : List Alarm)
    (hraised : g.alarms h fuel w = before ++ .raised f :: after) :
    a = .fault f ∧ g'.selector? = some .finished ∨ .replaced f ∈ after ∧
      g.cls.advance.keepsFaults = false := by
  by_cases hreplaced : .replaced f ∈ after
  · refine .inr ⟨hreplaced, ?_⟩
    rw [← Bool.not_eq_true]
    intro hkeeps
    refine alarms_of_keepsFaults hkeeps h fuel w f ?_
    rw [hraised]
    exact mem_append_right _ (mem_cons_of_mem _ hreplaced)
  · exact .inl (reply_of_standing hcall ⟨hf, before, after, hraised, hreplaced⟩)

end Instance

/-- Whether a fault is raised that handlers may not see. -/
def Alarm.isFatal : Alarm → Bool
  | .raised f => !f.isCatchable
  | .replaced _ => false

theorem Alarm.exists_of_any {alarms : List Alarm} (h : alarms.any isFatal = true) :
    ∃ f before after, f.isCatchable = false ∧ alarms = before ++ .raised f :: after := by
  obtain ⟨alarm, hmem, hfatal⟩ := any_eq_true.mp h
  cases alarm with
  | raised f =>
    obtain ⟨before, after, heq⟩ := append_of_mem hmem
    exact ⟨f, before, after, (Bool.not_eq_true' _).mp hfatal, heq⟩
  | replaced => cases hfatal

/-- A generator that can be called once more gives an answer. -/
theorem Trial.reply_of_more {h : Host} {fuel : Nat} {t t' : Trial}
    (hmore : t.more h fuel 1 = some t') :
    ∃ a g w, t.generator.reply h fuel .next t.world = .ok (a, g) w ∧
      t'.faults = t.faults ++ a.fault?.toList := by
  unfold more at hmore
  rcases hanswer : t.generator.reply h fuel .next t.world with ⟨⟨a, g⟩, w⟩ | ⟨e, w⟩
  all_goals
    rw [hanswer] at hmore
    cases hmore
  exact ⟨a, g, w, rfl, rfl⟩

/-- A procedure that calls a function that there is not, after it has emitted a value in a guard. -/
def Procedure.fatalCall : Procedure where
  name := "f"
  params := []
  returnType := none
  body := [.tryCatch [] [.expr (.call "step" [.int 7]) .unknown, .expr (.call "nope" []) .unknown]
    [.mk ⟨"e", none⟩ [⟨"Exception", []⟩] []]
    (some [.expr (.call "step" [.int 8]) .unknown]) .unknown]
  location := .unknown

/-- Its generator, when it is asked for the second value. -/
theorem Instance.uncatchable_told_fatalCall :
    ∃ (g g' : Instance) (a : Answer) (w w' : World) (f : Fault),
    g.reply (Functions.builtins.host 0) 20 .next w = .ok (a, g') w' ∧ f.isCatchable = false ∧
      a = .fault f ∧
      g'.selector? = some .finished := by
  have htrial : (Procedure.fatalCall.trial (Functions.builtins.host 0) 20 1).any (fun t =>
      t.generator.cls.advance.keepsFaults &&
        (t.generator.alarms (Functions.builtins.host 0) 20 t.world).any Alarm.isFatal &&
        (t.more (Functions.builtins.host 0) 20 1).isSome) = true := by decide +kernel
  obtain ⟨t, -, hgood⟩ := (Option.any_eq_true _ _).mp htrial
  simp only [Bool.and_eq_true] at hgood
  obtain ⟨⟨hkeeps, hfatal⟩, hmore⟩ := hgood
  obtain ⟨f, before, after, hf, halarms⟩ := Alarm.exists_of_any hfatal
  obtain ⟨t', hmore⟩ := Option.isSome_iff_exists.mp hmore
  obtain ⟨a, g', w', hcall, -⟩ := Trial.reply_of_more hmore
  rcases uncatchable_told t.generator g' .next _ 20 t.world w' a hcall f hf before after halarms
    with
    ⟨ha, hfinished⟩ | ⟨-, hnot⟩
  · exact ⟨t.generator, g', a, t.world, w', f, hcall, hf, ha, hfinished⟩
  · rw [hkeeps] at hnot
    cases hnot

/-- A procedure with a plain try, where final code raises an exception after such a call. -/
def Procedure.lostCall : Procedure where
  name := "f"
  params := []
  returnType := none
  body := [.tryCatch [] [.expr (.call "nope" []) .unknown] []
    (some [.raise (.call "error" [.literal (.str "x")]) .unknown]) .unknown]
  location := .unknown

/-- The generator of that procedure does not give the fault that was raised first. -/
theorem Procedure.lostCall_not_told : ∃ cls past faults g g' a w w' f, lostCall.lower {} = .ok cls ∧
    Session cls past faults g ∧ g.reply (Functions.builtins.host 0) 20 .next w = .ok (a, g') w' ∧
      .raised f ∈ g.alarms (Functions.builtins.host 0) 20 w ∧ f.isCatchable = false ∧
      a ≠ .fault f := by
  have htrial : (lostCall.trial (Functions.builtins.host 0) 20 0).any (fun t =>
      (t.generator.alarms (Functions.builtins.host 0) 20 t.world).any Alarm.isFatal &&
        (t.more (Functions.builtins.host 0) 20 1).any fun t' => t'.faults.all Fault.isCatchable) =
          true := by decide +kernel
  obtain ⟨t, hlower, hsession, hgood⟩ := session_of_trial htrial
  obtain ⟨hfatal, hmore⟩ := Bool.and_eq_true_iff.mp hgood
  obtain ⟨f, before, after, hf, halarms⟩ := Alarm.exists_of_any hfatal
  obtain ⟨t', hmore, hfaults⟩ := (Option.any_eq_true _ _).mp hmore
  obtain ⟨a, g', w', hcall, heq⟩ := Trial.reply_of_more hmore
  refine ⟨t.cls, t.past, t.faults, t.generator, g', a, t.world, w', f, hlower, hsession, hcall,
    ?_, hf, ?_⟩
  · rw [halarms]
    exact mem_append_right _ mem_cons_self
  · rintro rfl
    have hmem : f ∈ t'.faults := heq ▸ mem_append_right _ mem_cons_self
    have hcatchable := all_eq_true.mp hfaults f hmem
    rw [hf] at hcatchable
    cases hcatchable

end Resumable
