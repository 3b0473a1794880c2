import Resumable.Proofs.Sessions
import Resumable.Proofs.Tries

/-!
# Stays in a guard

What is seen of a guard from the moment when control enters it until it is entered again.

* `Guard.Seen` picks the events that count, and `Guard.script` says in which order they come: the
  body stops, resources are closed, the handler that takes the failure runs, and the final code;
* `Guard.track`: what is seen of a stay is the start of a script;
* `Procedure.lower_guards_orderly`: so it is in every session, whatever number of calls it takes.
-/

namespace Resumable

open List

/-- How the parts of a guard fail, if they do. -/
structure Course where
  /-- the first values of the resources, or the body -/
  body : Option Value
  /-- closing the value of a resource -/
  closing : SymbolId → Option Value
  /-- the handler -/
  handler : Option Value

namespace Course

variable {c : Course} {x y : SymbolId} {failure : Option Value}

/-- With that outcome of closing a resource. -/
def withClose (c : Course) (x : SymbolId) (failure : Option Value) : Course :=
  { c with closing := Function.update c.closing x failure }

theorem closing_withClose_self : (c.withClose x failure).closing x = failure :=
  Function.update_self ..

theorem closing_withClose_ne (hne : y ≠ x) : (c.withClose x failure).closing y = c.closing y :=
  Function.update_of_ne hne ..

/-- Closing one more resource does not change how others fail. -/
theorem findSome?_withClose {ys : List SymbolId} (hys : ∀ y ∈ ys, y ≠ x) :
    ys.findSome? (c.withClose x failure).closing = ys.findSome? c.closing := by
  induction ys with
  | nil => rfl
  | cons y ys ih =>
    obtain ⟨hy, hys⟩ := forall_mem_cons.mp hys
    rw [findSome?_cons, findSome?_cons, closing_withClose_ne hy, ih hys]

end Course

namespace Guard

variable (g : Guard)

/-! ## What is seen -/

/-- Control enters the guard: its machine is reset. -/
def IsEntry : Event → Prop
  | .assign x _ => x = g.own
  | _ => False

instance : DecidablePred g.IsEntry
  | .assign _ _ => inferInstanceAs (Decidable (_ = _))
  | .broke _ | .passed _ _ | .clear _ | .visit _ _ | .goto _ _ | .resumeAt _ _ | .finish _
  | .stopped _ _ | .close _ _ _ | .handle _ _ _ | .wait _ _ | .settle _ _ => .isFalse id

/-- An entry stores a value in the selector of the guard. -/
theorem exists_of_isEntry {ev : Event} (h : g.IsEntry ev) : ∃ v, ev = .assign g.own v := by
  cases ev with
  | assign x v => exact ⟨v, congrArg (Event.assign · v) h⟩
  | _ => exact h.elim

/-- The events that count: control enters the guard, its machine stops for good, resources are
closed, a handler is chosen, a failure has to wait, the final code starts, and it ends. -/
def Seen : Event → Bool
  | .assign x _ => x = g.own
  | .stopped selector (.ok none) => selector = g.own
  | .stopped selector (.error _) => selector = g.own
  | .close x _ _ => x ∈ g.fields.resources
  | .handle selector _ _ => selector = g.own
  | .wait pending _ => pending = g.fields.pending
  | .visit selector number => selector = g.outer ∧ number = g.number + 1
  | .settle pending _ => pending = g.fields.pending
  | _ => false

/-- What an event stores in a variable that held `old`. -/
def stored (x : SymbolId) (old : Value) : Event → Value
  | .assign y v => if y = x then v else old
  | _ => old

/-- The value that was stored last in the variable of a resource. -/
def held (events : List Event) (x : SymbolId) : Value :=
  if x ∈ g.fields.resources then events.foldl (stored x) .null else .null

/-- What is seen of the guard. -/
def seen (events : List Event) : List Event := events.filter g.Seen

/-- Where control is to go behind the final code after an event, if it was to go to `old` before. -/
def redirected (old : Value) : Event → Value
  | .assign y v => if y = g.fields.pendingJump then v else old
  | .handle selector _ _ => if selector = g.own then .int (-1) else old
  | .wait pending _ => if pending = g.fields.pending then .int (-1) else old
  | _ => old

/-- The tag that control is to go to behind the final code, or -1: what the body has left, or else
the handler. -/
def bound (events : List Event) : Value := events.foldl g.redirected (.int (-1))

/-! ## Scripts -/

/-- The machine of the guard stops for good. -/
def stop : Option Value → Event
  | none => .stopped g.own (.ok none)
  | some failure => .stopped g.own (.error failure)

section Script

variable (held : SymbolId → Value) (c : Course)

/-- The resources that hold something, from the last one to the first. -/
def toClose : List SymbolId := g.fields.resources.reverse.filter fun x => !(held x).isNull

/-- A resource is closed. -/
def closeEvent (x : SymbolId) : Event := .close x (held x) (c.closing x)

/-- The failure that handlers see: that of the body, or else the first one of closing. -/
def primary : Option Value := c.body.or ((g.toClose held).findSome? c.closing)

/-- The failure that handlers see and the first handler that takes it. -/
def taken? : Option (Value × Handler) :=
  (g.primary held c).bind fun f => (g.handler? f).map fun h => (f, h)

/-- The failure that waits for the end of the final code: that of the handler, if one has run, or
else the one that no handler takes. -/
def waiting : Option Value := if (g.taken? held c).isSome then c.handler else g.primary held c

/-- The handler runs. -/
def handleEvents : List Event :=
  match g.taken? held c with
  | some (failure, h) => [.handle g.own h.entry failure, g.stop c.handler]
  | none => []

/-- All that is seen before the final code starts. -/
def beforeFinal : List Event :=
  g.stop c.body :: ((g.toClose held).map (closeEvent held c) ++ g.handleEvents held c ++
    (g.waiting held c).toList.map (.wait g.fields.pending))

/-- All that is seen until the final code starts. -/
def untilFinal : List Event := g.beforeFinal held c ++ [.visit g.outer (g.number + 1)]

/-- **The script**: all that is seen of a guard after it was entered, if its final code ends. -/
def script : List Event :=
  g.untilFinal held c ++ [.settle g.fields.pending ((g.waiting held c).getD .null)]

end Script

/-! ## Events that are of no concern -/

/-- The variables of the guard are different ones. -/
structure Proper : Prop where
  own_outer : g.own ≠ g.outer
  steering : g.steering.Nodup
  resources : g.fields.resources.Nodup
  apart : ∀ x ∈ g.steering, x ∉ g.fields.resources
  exit : ∀ x ∈ g.exit, x ∉ g.steering ∧ x ∉ g.fields.resources

/-- The event neither counts nor changes what counts. -/
structure Aside (ev : Event) : Prop where
  unseen : g.Seen ev = false
  held : ∀ x ∈ g.fields.resources, ∀ v, stored x v ev = v
  bound : ∀ v, g.redirected v ev = v

variable {g} {keeps : SymbolId → Prop} {ev : Event}

/-- An assignment to a variable of others is of no concern. -/
theorem aside_assign {x : SymbolId} {v : Value} (hown : x ≠ g.own)
    (hjump : x ≠ g.fields.pendingJump) (hx : x ∉ g.fields.resources) : g.Aside (.assign x v) where
  unseen := decide_eq_false hown
  held := fun y hy _ => if_neg fun heq : x = y => hx (heq ▸ hy)
  bound := fun _ => if_neg hjump

/-- What the guard does not own is of no concern, unless it is its final code that starts. -/
theorem aside_of_not_mine (hkeeps : ∀ x ∈ g.fields.resources, keeps x) (hmine : ¬ g.Mine keeps ev)
    (henters : ¬ g.Enters ev) : g.Aside ev := by
  have hsteering : ∀ {x}, ¬ (x ∈ g.steering ∨ x ∈ g.fields.resources ∧ keeps x) →
      x ∉ g.steering ∧ x ∉ g.fields.resources := fun h =>
    ⟨fun hx => h (.inl hx), fun hx => h (.inr ⟨hx, hkeeps _ hx⟩)⟩
  cases ev with
  | assign =>
    obtain ⟨hx, hx'⟩ := hsteering hmine
    exact aside_assign (fun heq => hx (heq ▸ by simp [steering]))
      (fun heq => hx (heq ▸ by simp [steering])) hx'
  | stopped selector outcome =>
    refine ⟨?_, fun _ _ _ => rfl, fun _ => rfl⟩
    rcases outcome with f | (_ | v)
    · exact decide_eq_false hmine
    · exact decide_eq_false hmine
    · rfl
  | close | settle => exact ⟨decide_eq_false hmine, fun _ _ _ => rfl, fun _ => rfl⟩
  | handle => exact ⟨decide_eq_false hmine, fun _ _ _ => rfl, fun _ => if_neg hmine⟩
  | wait => exact ⟨decide_eq_false hmine, fun _ _ _ => rfl, fun _ => if_neg hmine⟩
  | visit =>
    refine ⟨decide_eq_false fun h => henters ⟨h.1, .inr h.2⟩, fun _ _ _ => rfl, fun _ => rfl⟩
  | _ => exact ⟨rfl, fun _ _ _ => rfl, fun _ => rfl⟩

/-- What goes on inside the guard is of no concern. -/
theorem aside_of_inner (hg : g.Proper) (hev : g.Inner ev) : g.Aside ev := by
  cases ev with
  | stopped selector outcome =>
    rcases outcome with f | (_ | v)
    · exact hev.elim
    · exact hev.elim
    · exact ⟨rfl, fun _ _ _ => rfl, fun _ => rfl⟩
  | visit selector =>
    have hselector : selector = g.own := hev
    exact ⟨decide_eq_false fun h => hg.own_outer (hselector ▸ h.1), fun _ _ _ => rfl, fun _ => rfl⟩
  | goto | resumeAt | finish => exact ⟨rfl, fun _ _ _ => rfl, fun _ => rfl⟩
  | _ => exact hev.elim

/-- Nor is a suspension there, or coming back to it. -/
theorem aside_of_through {tags : TagTable} (hev : g.Through tags ev) : g.Aside ev := by
  cases ev with
  | stopped selector outcome =>
    rcases outcome with f | (_ | v)
    · exact hev.elim
    · exact hev.elim
    · exact ⟨rfl, fun _ _ _ => rfl, fun _ => rfl⟩
  | visit selector number =>
    obtain ⟨-, rfl⟩ : _ ∧ number = g.number := hev
    refine ⟨decide_eq_false fun h => ?_, fun _ _ _ => rfl, fun _ => rfl⟩
    have hnumber := h.2
    omega
  | goto => exact ⟨rfl, fun _ _ _ => rfl, fun _ => rfl⟩
  | _ => exact hev.elim

/-! ## Following a stay -/

section Track

variable (g) (seen : List Event) (held : SymbolId → Value) (bound : Value)

/-- The body has stopped, and resources have been closed but for the rest. -/
structure Closing (c : Course) (rest : List SymbolId) : Prop where
  split : ∃ done, g.toClose held = done ++ rest.filter (fun x => !(held x).isNull) ∧
    seen = g.stop c.body :: done.map (closeEvent held c) ∧ ∀ x ∉ done, c.closing x = none
  sublist : rest.Sublist g.fields.resources.reverse

/-- A handler has been entered. -/
def Handling (c : Course) : Prop :=
  ∃ failure h, g.taken? held c = some (failure, h) ∧
    seen = g.stop c.body :: ((g.toClose held).map (closeEvent held c) ++
      [.handle g.own h.entry failure])

/-- What has been seen since control entered the guard, in each phase. -/
def Track : Phase → Prop
  | .body h => seen = [] ∧ (∀ x ∈ g.fields.resources, h x = held x) ∧ bound = .int (-1)
  | .parked (some h) tag => seen = [] ∧ (∀ x ∈ g.fields.resources, h x = held x) ∧ bound = tag.value
  | .closing rest h failure jump =>
    (∀ x ∈ g.fields.resources, h x = held x) ∧ bound = jumpValue jump ∧
    ∃ c, g.Closing seen held c rest ∧ failure = g.primary held c
  | .handling => (∃ c, g.Handling seen held c) ∧ bound = .int (-1)
  | .parked none tag => (∃ c, g.Handling seen held c) ∧ bound = tag.value
  | .failed failure =>
    bound = .int (-1) ∧ ∃ c, (g.taken? held c).isSome ∧ c.handler = some failure ∧
    seen = g.stop c.body :: ((g.toClose held).map (closeEvent held c) ++ g.handleEvents held c)
  | .leaving failure jump =>
    bound = jumpValue jump ∧ ∃ c, g.waiting held c = failure ∧ seen = g.beforeFinal held c
  | .arriving failure jump =>
    bound = jumpValue jump ∧ ∃ c, g.waiting held c = failure ∧ seen = g.beforeFinal held c
  | .final failure jump =>
    bound = jumpValue jump ∧ ∃ c, g.waiting held c = failure ∧ seen = g.untilFinal held c
  | .raising failure => ∃ c, g.waiting held c = some failure ∧ seen = g.script held c
  | .released jump => bound = jumpValue jump ∧ ∃ c, seen = g.script held c
  | .idle => ∃ c, seen = g.script held c

end Track

variable {events : List Event} {φ φ' : Phase} {tags : TagTable}

/-- An event changes what is held by what it stores. -/
theorem held_snoc (events : List Event) (ev : Event) (x : SymbolId) (hx : x ∈ g.fields.resources) :
    g.held (events ++ [ev]) x = stored x (g.held events x) ev := by
  rw [held, held, if_pos hx, if_pos hx, foldl_append]
  rfl

theorem held_snoc_same (h : ∀ x ∈ g.fields.resources, ∀ v, stored x v ev = v) :
    g.held (events ++ [ev]) = g.held events := by
  funext x
  by_cases hx : x ∈ g.fields.resources
  · rw [held_snoc events ev x hx, h x hx]
  · rw [held, held, if_neg hx, if_neg hx]

theorem bound_snoc (events : List Event) (ev : Event) :
    g.bound (events ++ [ev]) = g.redirected (g.bound events) ev := by
  rw [bound, foldl_append]
  rfl

theorem seen_snoc (events : List Event) (hev : g.Seen ev = true) :
    g.seen (events ++ [ev]) = g.seen events ++ [ev] := by
  rw [seen, filter_append, filter_cons_of_pos hev, filter_nil]
  rfl

theorem seen_snoc_same (events : List Event) (hev : g.Seen ev = false) :
    g.seen (events ++ [ev]) = g.seen events := by
  rw [seen, filter_append, filter_cons_of_neg (by rw [hev]; decide), filter_nil, List.append_nil]
  rfl

/-- What is known of the events so far. -/
def Tracks (g : Guard) (events : List Event) (φ : Phase) : Prop :=
  g.Track (g.seen events) (g.held events) (g.bound events) φ

/-- Events of no concern leave what is known as it was. -/
theorem Tracks.aside (h : g.Tracks events φ) (hev : g.Aside ev) : g.Tracks (events ++ [ev]) φ := by
  rw [Tracks, seen_snoc_same events hev.unseen, held_snoc_same hev.held, bound_snoc, hev.bound]
  exact h

/-- An event that counts, but for which nothing is stored. -/
theorem tracks_snoc (hseen : g.Seen ev = true)
    (hheld : ∀ x ∈ g.fields.resources, ∀ v, stored x v ev = v)
    (h : g.Track (g.seen events ++ [ev]) (g.held events) (g.redirected (g.bound events) ev) φ) :
    g.Tracks (events ++ [ev]) φ := by
  rw [Tracks, seen_snoc events hseen, held_snoc_same hheld, bound_snoc]
  exact h

/-- An event that does not count, and for which no resource is stored. -/
theorem tracks_snoc_same (hseen : g.Seen ev = false)
    (hheld : ∀ x ∈ g.fields.resources, ∀ v, stored x v ev = v)
    (h : g.Track (g.seen events) (g.held events) (g.redirected (g.bound events) ev) φ) :
    g.Tracks (events ++ [ev]) φ := by
  rw [Tracks, seen_snoc_same events hseen, held_snoc_same hheld, bound_snoc]
  exact h

/-! ### Closing -/

section Close

variable {seen : List Event} {h : SymbolId → Value} {c : Course} {rest skipped : List SymbolId}
  {x : SymbolId}

/-- Resources that hold nothing are not closed. -/
theorem filter_null (hnull : ∀ y ∈ rest, h y = .null) : rest.filter (fun y => !(h y).isNull) = [] :=
  filter_eq_nil_iff.mpr fun y hy => by simp [hnull y hy, Value.isNull]

/-- The body has just stopped. -/
theorem closing_start (hseen : seen = []) (held : SymbolId → Value) (failure : Option Value) :
    g.Closing (seen ++ [g.stop failure]) held
      ⟨failure, fun _ => none, none⟩ g.fields.resources.reverse ∧
      failure = g.primary held ⟨failure, fun _ => none, none⟩ := by
  subst hseen
  refine ⟨⟨⟨[], rfl, rfl, fun _ _ => rfl⟩, .refl _⟩, ?_⟩
  have hnone : (g.toClose held).findSome? (fun _ => (none : Option Value)) = none :=
    findSome?_eq_none_iff.mpr fun _ _ => rfl
  rw [primary, hnone, Option.or_none]

/-- Once nothing is left that holds a value, all has been closed. -/
theorem Closing.all (hc : g.Closing seen h c rest) (hnull : ∀ y ∈ rest, h y = .null) :
    seen = g.stop c.body :: (g.toClose h).map (closeEvent h c) := by
  obtain ⟨done, hsplit, hseen, -⟩ := hc.split
  rw [filter_null hnull, List.append_nil] at hsplit
  rw [hsplit, hseen]

/-- One more resource is closed. -/
theorem Closing.close (hg : g.Proper) (hc : g.Closing seen h c (skipped ++ x :: rest))
    (hskipped : ∀ y ∈ skipped, h y = .null) (hx : (h x).isNull = false) (failure : Option Value) :
    g.Closing (seen ++ [.close x (h x) failure]) h (c.withClose x failure) rest ∧
      (g.primary h c).or failure = g.primary h (c.withClose x failure) := by
  obtain ⟨done, hsplit, hseen, hnone⟩ := hc.split
  rw [filter_append, filter_null hskipped, nil_append,
    filter_cons_of_pos (by rw [hx]; decide)] at hsplit
  have hnodup : (done ++ x :: rest.filter fun y => !(h y).isNull).Nodup := by
    rw [← hsplit]
    exact (nodup_reverse.mpr hg.resources).filter _
  obtain ⟨-, hright, hdisjoint⟩ := nodup_append.mp hnodup
  have hne : ∀ y ∈ done, y ≠ x := fun y hy => hdisjoint y hy x mem_cons_self
  have hlater : ∀ y ∈ rest.filter (fun y => !(h y).isNull), y ≠ x ∧ c.closing y = none :=
    fun y hy =>
    ⟨fun heq => (nodup_cons.mp hright).1 (heq ▸ hy), hnone y fun hmem =>
      hdisjoint y hmem y (mem_cons_of_mem _ hy) rfl⟩
  refine ⟨⟨⟨done ++ [x], ?_, ?_, fun y hy => ?_⟩, ?_⟩, ?_⟩
  · rw [hsplit, List.append_assoc]
    rfl
  · have hmap : done.map (closeEvent h (c.withClose x failure)) = done.map (closeEvent h c) :=
      map_congr_left fun y hy => by
        rw [closeEvent, closeEvent, Course.closing_withClose_ne (hne y hy)]
    rw [map_append, hmap, hseen, map_singleton, closeEvent, Course.closing_withClose_self]
    rfl
  · simp only [mem_append, mem_singleton, not_or] at hy
    rw [Course.closing_withClose_ne hy.2]
    exact hnone y hy.1
  · exact ((sublist_cons_self ..).trans (sublist_append_right ..)).trans hc.sublist
  · have hnow : c.closing x = none := hnone x fun hmem => hne x hmem rfl
    have hlate : (rest.filter fun y => !(h y).isNull).findSome? c.closing = none :=
      findSome?_eq_none_iff.mpr fun y hy => (hlater y hy).2
    rw [primary, primary, hsplit, findSome?_append, findSome?_append, findSome?_cons,
      findSome?_cons, hnow, Course.closing_withClose_self, Course.findSome?_withClose hne,
      Course.findSome?_withClose fun y hy => (hlater y hy).1, hlate, Option.or_none,
      Option.or_assoc]
    cases failure <;> rfl

end Close

/-! ### Handlers and final code -/

section Handle

variable {seen : List Event} {h : SymbolId → Value} {c : Course} {failure : Value}
  {handler : Handler}

/-- Without a failure no handler runs, -/
theorem taken?_of_none (hprimary : g.primary h c = none) : g.taken? h c = none := by
  rw [taken?, hprimary]
  rfl

/-- nor if none takes it. -/
theorem taken?_of_unhandled (hprimary : g.primary h c = some failure)
    (hnone : g.handler? failure = none) : g.taken? h c = none := by
  rw [taken?, hprimary, Option.bind_some, hnone]
  rfl

theorem taken?_of_handled (hprimary : g.primary h c = some failure)
    (hsome : g.handler? failure = some handler) : g.taken? h c = some (failure, handler) := by
  rw [taken?, hprimary, Option.bind_some, hsome]
  rfl

/-- No handler has run. -/
theorem beforeFinal_of_none (htaken : g.taken? h c = none) :
    g.beforeFinal h c = g.stop c.body :: ((g.toClose h).map (closeEvent h c) ++
      (g.primary h c).toList.map (.wait g.fields.pending)) ∧ g.waiting h c = g.primary h c := by
  have hwaiting : g.waiting h c = g.primary h c := by
    rw [waiting, htaken]
    rfl
  refine ⟨?_, hwaiting⟩
  rw [beforeFinal, handleEvents, htaken, hwaiting, List.append_nil]

/-- A handler has run. -/
theorem beforeFinal_of_some (htaken : g.taken? h c = some (failure, handler)) :
    g.beforeFinal h c = g.stop c.body :: ((g.toClose h).map (closeEvent h c) ++
      [.handle g.own handler.entry failure, g.stop c.handler] ++
        c.handler.toList.map (.wait g.fields.pending)) ∧ g.waiting h c = c.handler := by
  have hwaiting : g.waiting h c = c.handler := by
    rw [waiting, htaken]
    rfl
  refine ⟨?_, hwaiting⟩
  rw [beforeFinal, handleEvents, htaken, hwaiting]

/-- The handler stops. -/
theorem Handling.stop (hc : g.Handling seen h c) (outcome : Option Value) :
    ∃ failure handler, g.taken? h { c with handler := outcome } = some (failure, handler) ∧
      seen ++ [g.stop outcome] = g.stop c.body ::
        ((g.toClose h).map (closeEvent h { c with handler := outcome }) ++
        [.handle g.own handler.entry failure, g.stop outcome]) := by
  obtain ⟨failure, handler, htaken, rfl⟩ := hc
  refine ⟨failure, handler, htaken, ?_⟩
  rw [cons_append, List.append_assoc]
  rfl

end Handle

/-! ### One event and many -/

/-- The end of the machine counts. -/
theorem seen_stop (failure : Option Value) : g.Seen (g.stop failure) = true := by
  cases failure <;> exact decide_eq_true rfl

/-- **One event.** What is seen goes on as the phases do. -/
theorem Tracks.step (hg : g.Proper) (hkeeps : ∀ x ∈ g.fields.resources, keeps x)
    (h : g.Tracks events φ) (hstep : g.Step tags keeps φ ev φ') (hentry : ¬ g.IsEntry ev) :
    g.Tracks (events ++ [ev]) φ' := by
  obtain ⟨⟨hown₁, hown₂, hown₃⟩, ⟨hhandler₁, hhandler₂⟩, hpending⟩ := steering_ne hg.steering
  have hapart : ∀ x ∈ g.steering, ∀ y ∈ g.fields.resources, x ≠ y := fun x hx y hy heq =>
    hg.apart x hx (heq ▸ hy)
  have hnull : ∀ {rest : List SymbolId} {h₀ : SymbolId → Value},
      rest.Sublist g.fields.resources.reverse →
      (∀ x ∈ g.fields.resources, h₀ x = g.held events x) → Empty keeps h₀ rest →
      ∀ y ∈ rest, g.held events y = .null := fun hsub hheld hempty y hy => by
    have hy' := mem_reverse.mp (hsub.subset hy)
    exact (hheld y hy').symm.trans (hempty y hy (hkeeps y hy'))
  -- one case for each way in which a phase goes on; what counts adds the next line of the script
  cases hstep with
  | elsewhere hφ hmine henters => exact h.aside (aside_of_not_mine hkeeps hmine henters)
  | enter => exact absurd rfl hentry
  | @reset held ev hev =>
    cases ev with
    | assign =>
      rcases hev with ⟨rfl, -⟩ | ⟨rfl, -⟩ | ⟨rfl, rfl⟩
      · exact h.aside (aside_assign hown₁.symm hhandler₂ (hg.apart _ (by simp [steering])))
      · exact h.aside (aside_assign hown₂.symm hpending (hg.apart _ (by simp [steering])))
      · obtain ⟨hseen, hheld, -⟩ := h
        exact tracks_snoc_same (decide_eq_false hown₃.symm)
          (fun y hy _ => if_neg (hapart _ (by simp [steering]) y hy)) ⟨hseen, hheld, if_pos rfl⟩
    | _ => exact hev.elim
  | @hold h₀ x v hx =>
    obtain ⟨hseen, hheld, hbound⟩ := h
    -- the variable of a resource steers nothing, so only what is held changes
    have hown : x ≠ g.own := fun heq => hapart g.own (by simp [steering]) x hx heq.symm
    have hjump : x ≠ g.fields.pendingJump :=
      fun heq => hapart g.fields.pendingJump (by simp [steering]) x hx heq.symm
    have hunseen : g.Seen (.assign x v) = false := decide_eq_false hown
    refine ⟨(seen_snoc_same events hunseen).trans hseen, fun y hy => ?_, ?_⟩
    · rw [held_snoc events _ y hy]
      by_cases heq : y = x
      · subst heq
        rw [Function.update_self]
        exact (if_pos rfl).symm
      · rw [Function.update_of_ne heq, hheld y hy]
        exact (if_neg fun h : x = y => heq h.symm).symm
    · rw [bound_snoc, hbound]
      exact if_neg hjump
  | inside hφ hmine haround =>
    refine h.aside (aside_of_not_mine hkeeps hmine fun henters => haround ?_)
    cases ev with
    | visit => exact henters.1
    | _ => exact henters.elim
  | inner hφ hev => exact h.aside (aside_of_inner hg hev)
  | through hφ hev => exact h.aside (aside_of_through hev)
  | @park =>
    obtain ⟨hseen, hheld, -⟩ := h
    exact tracks_snoc_same (decide_eq_false hown₃.symm)
      (fun y hy _ => if_neg (hapart _ (by simp [steering]) y hy)) ⟨hseen, hheld, if_pos rfl⟩
  | @parkHandler =>
    obtain ⟨hhandling, -⟩ := h
    exact tracks_snoc_same (decide_eq_false hown₃.symm)
      (fun y hy _ => if_neg (hapart _ (by simp [steering]) y hy)) ⟨hhandling, if_pos rfl⟩
  | parkEnd | leave | drop => exact h.aside ⟨rfl, fun _ _ _ => rfl, fun _ => rfl⟩
  | @stop | @stopParked =>
    obtain ⟨hseen, hheld, hbound⟩ := h
    exact tracks_snoc (seen_stop none) (fun _ _ _ => rfl)
      ⟨hheld, hbound, _, closing_start hseen _ none⟩
  | @fail h₀ failure =>
    obtain ⟨hseen, hheld, hbound⟩ := h
    exact tracks_snoc (seen_stop (some failure)) (fun _ _ _ => rfl)
      ⟨hheld, hbound, _, closing_start hseen _ (some failure)⟩
  | @close skipped x rest h₀ failure jump v failure' hskipped hv hx =>
    obtain ⟨hheld, hbound, c, hclosing, rfl⟩ := h
    have hmem : ∀ y ∈ skipped ++ x :: rest, y ∈ g.fields.resources := fun y hy =>
      mem_reverse.mp (hclosing.sublist.subset hy)
    have hx' : x ∈ g.fields.resources := hmem x (by simp)
    obtain rfl : v = g.held events x := (hx (hkeeps x hx')).trans (hheld x hx')
    have hnulls : ∀ y ∈ skipped, g.held events y = .null := fun y hy => by
      have hy' := hmem y (mem_append_left _ hy)
      exact (hheld y hy').symm.trans (hskipped y hy (hkeeps y hy'))
    obtain ⟨hclosing', hprimary⟩ := hclosing.close hg hnulls hv failure'
    exact tracks_snoc (decide_eq_true hx') (fun _ _ _ => rfl)
      ⟨hheld, hbound, _, hclosing', hprimary⟩
  | @closed rest h₀ jump hrest =>
    obtain ⟨hheld, hbound, c, hclosing, hprimary⟩ := h
    have hseen := hclosing.all (hnull hclosing.sublist hheld hrest)
    obtain ⟨hbefore, hwaiting⟩ := beforeFinal_of_none (taken?_of_none hprimary.symm)
    refine tracks_snoc_same rfl (fun _ _ _ => rfl) ⟨hbound, c, hwaiting.trans hprimary.symm, ?_⟩
    rw [hseen, hbefore, ← hprimary]
    simp
  | @handle rest h₀ failure jump handler hrest hh =>
    obtain ⟨hheld, -, c, hclosing, hprimary⟩ := h
    have hseen := hclosing.all (hnull hclosing.sublist hheld hrest)
    refine tracks_snoc (decide_eq_true rfl) (fun _ _ _ => rfl)
      ⟨⟨c, failure, handler, taken?_of_handled hprimary.symm hh, ?_⟩, if_pos rfl⟩
    rw [hseen, cons_append]
  | @unhandled rest h₀ failure jump hrest hnone =>
    obtain ⟨hheld, -, c, hclosing, hprimary⟩ := h
    have hseen := hclosing.all (hnull hclosing.sublist hheld hrest)
    obtain ⟨hbefore, hwaiting⟩ := beforeFinal_of_none (taken?_of_unhandled hprimary.symm hnone)
    refine tracks_snoc (decide_eq_true rfl) (fun _ _ _ => rfl)
      ⟨if_pos rfl, c, hwaiting.trans hprimary.symm, ?_⟩
    rw [hseen, hbefore, ← hprimary]
    rfl
  | stopHandler | @stopHandlerParked =>
    obtain ⟨⟨c, hhandling⟩, hbound⟩ := h
    obtain ⟨failure, handler, htaken, hseen⟩ := hhandling.stop none
    obtain ⟨hbefore, hwaiting⟩ := beforeFinal_of_some htaken
    refine tracks_snoc (seen_stop none) (fun _ _ _ => rfl) ⟨hbound, _, hwaiting, hseen.trans ?_⟩
    rw [hbefore]
    simp
  | @failHandler failure' =>
    obtain ⟨⟨c, hhandling⟩, hbound⟩ := h
    obtain ⟨failure, handler, htaken, hseen⟩ := hhandling.stop (some failure')
    refine tracks_snoc (seen_stop (some failure')) (fun _ _ _ => rfl)
      ⟨hbound, { c with handler := some failure' }, by rw [htaken]; rfl, rfl, hseen.trans ?_⟩
    rw [handleEvents, htaken]
  | @waitHandler =>
    obtain ⟨-, c, htaken, hfailure, hseen⟩ := h
    obtain ⟨⟨failure, handler⟩, htaken⟩ := Option.isSome_iff_exists.mp htaken
    obtain ⟨hbefore, hwaiting⟩ := beforeFinal_of_some htaken
    refine tracks_snoc (decide_eq_true rfl) (fun _ _ _ => rfl)
      ⟨if_pos rfl, c, hwaiting.trans hfailure, ?_⟩
    rw [hseen, hbefore, handleEvents, htaken, hfailure]
    rfl
  | arrive =>
    obtain ⟨hbound, c, hwaiting, hseen⟩ := h
    refine tracks_snoc (decide_eq_true ⟨rfl, rfl⟩) (fun _ _ _ => rfl) ⟨hbound, c, hwaiting, ?_⟩
    rw [hseen]
    rfl
  | settle =>
    obtain ⟨-, c, hwaiting, hseen⟩ := h
    refine tracks_snoc (decide_eq_true rfl) (fun _ _ _ => rfl) ⟨c, hwaiting, ?_⟩
    rw [hseen, script, hwaiting]
    rfl
  | raise =>
    obtain ⟨c, -, hseen⟩ := h
    exact tracks_snoc_same (decide_eq_false hg.own_outer.symm) (fun _ _ _ => rfl) ⟨c, hseen⟩
  | release hnull =>
    obtain ⟨hbound, c, hwaiting, hseen⟩ := h
    refine tracks_snoc (decide_eq_true rfl) (fun _ _ _ => rfl) ⟨hbound, c, ?_⟩
    rw [hseen, script, hwaiting, hnull]
  | behind | arriveAt | arriveEnd =>
    obtain ⟨-, hscript⟩ := h
    exact tracks_snoc_same rfl (fun _ _ _ => rfl) hscript
  | @passOn tag x hexit =>
    obtain ⟨-, hscript⟩ := h
    obtain ⟨hx, hx'⟩ := hg.exit x hexit
    exact tracks_snoc_same (decide_eq_false fun heq => hx (heq ▸ by simp [steering]))
      (fun y hy _ => if_neg fun heq : x = y => hx' (heq ▸ hy)) hscript

/-- **Many events.** -/
theorem Tracks.run (hg : g.Proper) (hkeeps : ∀ x ∈ g.fields.resources, keeps x) {more : List Event}
    (h : g.Tracks events φ) (hmore : Follows (g.Step tags keeps) φ more φ')
    (hentry : ∀ ev ∈ more, ¬ g.IsEntry ev) : g.Tracks (events ++ more) φ' := by
  induction hmore generalizing events with
  | nil =>
    rw [List.append_nil]
    exact h
  | @cons s t u ev more hstep _ ih =>
    obtain ⟨hev, hmore⟩ := forall_mem_cons.mp hentry
    have hnext := ih (h.step hg hkeeps hstep hev) hmore
    rwa [List.append_assoc] at hnext

/-- A stay starts with nothing seen and nothing held. -/
theorem tracks_entered (g : Guard) : g.Tracks [] (.body fun _ => .null) := by
  refine ⟨rfl, fun x hx => ?_, rfl⟩
  rw [held, if_pos hx]
  rfl

end Guard

/-- The guard has come to its final code. -/
def Phase.Completed : Phase → Prop
  | idle => True
  | final _ _ => True
  | raising _ => True
  | released _ => True
  | _ => False

/-- Who is outside a guard has been through its final code, or never in it. -/
theorem Phase.Outside.completed {φ : Phase} (h : φ.Outside) : φ.Completed := by
  cases φ <;> first | exact trivial | exact h.elim

theorem Phase.Inside.not_completed {φ : Phase} (h : φ.Inside) : ¬ φ.Completed := by
  cases φ <;> first | exact id | exact h.elim

namespace Guard

variable {g : Guard} {keeps : SymbolId → Prop} {ev : Event} {events : List Event} {φ φ' : Phase}
  {tags : TagTable}

/-- What comes before the final code is the start of the script. -/
theorem beforeFinal_starts (h : SymbolId → Value) (c : Course) :
    g.beforeFinal h c <+: g.script h c :=
  (prefix_append _ _).trans (prefix_append _ _)

/-- What is seen is the start of a script. Where control is outside the guard, the final code has
been reached; where it is inside, all is still to come, or all but the end of a handler. -/
theorem Tracks.script (h : g.Tracks events φ) : ∃ c, g.seen events <+: g.script (g.held events) c ∧
    (φ.Completed → g.untilFinal (g.held events) c <+: g.seen events) ∧
    (φ.Inside → g.seen events = [] ∨ g.Handling (g.seen events) (g.held events) c) := by
  have hnil : g.seen events = [] → ∃ c, g.seen events <+: g.script (g.held events) c :=
    fun hseen => by
    rw [hseen]
    exact ⟨⟨none, fun _ => none, none⟩, nil_prefix⟩
  have hhandling : ∀ {c}, g.Handling (g.seen events) (g.held events) c →
      g.seen events <+: g.script (g.held events) c := fun {c} hc => by
    obtain ⟨failure, handler, htaken, hseen⟩ := hc
    refine List.IsPrefix.trans ?_ (beforeFinal_starts _ c)
    rw [hseen, (beforeFinal_of_some htaken).1]
    simp [prefix_append_right_inj, prefix_cons_iff]
  cases φ with
  | idle =>
    obtain ⟨c, hseen⟩ := h
    exact ⟨c, hseen ▸ prefix_refl _, fun _ => hseen ▸ prefix_append _ _, False.elim⟩
  | body =>
    obtain ⟨c, hc⟩ := hnil h.1
    exact ⟨c, hc, False.elim, fun _ => .inl h.1⟩
  | handling =>
    obtain ⟨⟨c, hc⟩, -⟩ := h
    exact ⟨c, hhandling hc, False.elim, fun _ => .inr hc⟩
  | parked h₀ =>
    cases h₀ with
    | none =>
      obtain ⟨⟨c, hc⟩, -⟩ := h
      exact ⟨c, hhandling hc, False.elim, False.elim⟩
    | some =>
      obtain ⟨c, hc⟩ := hnil h.1
      exact ⟨c, hc, False.elim, False.elim⟩
  | closing =>
    obtain ⟨-, -, c, ⟨⟨done, hsplit, hseen, -⟩, -⟩, -⟩ := h
    refine ⟨c, List.IsPrefix.trans ?_ (beforeFinal_starts _ c), False.elim, False.elim⟩
    rw [hseen, beforeFinal, hsplit]
    simp [prefix_cons_iff]
  | failed =>
    obtain ⟨-, c, -, -, hseen⟩ := h
    refine ⟨c, List.IsPrefix.trans ?_ (beforeFinal_starts _ c), False.elim, False.elim⟩
    rw [hseen, beforeFinal]
    simp [prefix_append_right_inj, prefix_cons_iff]
  | leaving | arriving =>
    obtain ⟨-, c, -, hseen⟩ := h
    exact ⟨c, hseen ▸ beforeFinal_starts _ c, False.elim, False.elim⟩
  | final =>
    obtain ⟨-, c, -, hseen⟩ := h
    exact ⟨c, hseen ▸ prefix_append _ _, fun _ => hseen ▸ prefix_refl _, False.elim⟩
  | raising =>
    obtain ⟨c, -, hseen⟩ := h
    exact ⟨c, hseen ▸ prefix_refl _, fun _ => hseen ▸ prefix_append _ _, False.elim⟩
  | released =>
    obtain ⟨-, c, hseen⟩ := h
    exact ⟨c, hseen ▸ prefix_refl _, fun _ => hseen ▸ prefix_append _ _, False.elim⟩

/-! ## Whole stays -/

/-- Control goes on behind the final code: to the tag that was left, in the machine around the guard
or further out, or else to what is behind the guard. -/
inductive GoesOn (g : Guard) (tags : TagTable) : Value → Event → Prop where
  | behind : GoesOn g tags (.int (-1)) (.goto g.outer g.endTag)
  | within {tag} (howner : tags.owner tag = g.place) : GoesOn g tags tag.value (.goto g.outer tag)
  | finish (hexit : g.exit = none) : GoesOn g tags Tag.finished.value (.finish g.outer)
  | further {tag x} (hexit : g.exit = some x) (howner : tags.owner tag ≠ g.place) :
      GoesOn g tags tag.value (.assign x tag.value)

/-- The machine around the guard goes on elsewhere: it neither comes to the guard, or suspends
there, nor goes to the final code. -/
def Leaves (g : Guard) (tags : TagTable) (ev : Event) : Prop :=
  g.Around ev ∧ ¬ g.Through tags ev ∧ ev ≠ .goto g.outer g.finalTag ∧
    ev ≠ .visit g.outer (g.number + 1)

/-- A stay in a guard is as it should be: `events` come after the entry, `after` with the next
entry, if there is one. -/
structure Orderly (g : Guard) (tags : TagTable) (events after : List Event) (faults : List Fault)
    (ended : Prop) : Prop where
  /-- what is seen is the start of a script, and the final code has been reached; or else this is
  the last stay so far, the procedure is not over, and it rests in the body or in a handler -/
  course : ∃ c, g.seen events <+: g.script (g.held events) c ∧
    (g.untilFinal (g.held events) c <+: g.seen events ∨
      after = [] ∧ ¬ ended ∧ (g.seen events = [] ∨ g.Handling (g.seen events) (g.held events) c))
  /-- control leaves the guard through its final code only -/
  leaves : ∀ early ev late, events = early ++ ev :: late → g.Leaves tags ev →
    .visit g.outer (g.number + 1) ∈ early
  /-- a failure that waits for the end of the final code is raised there -/
  raises : ∀ early v late, events = early ++ .settle g.fields.pending v :: late → v.isNull = false →
    (∃ more, late = .stopped g.outer (.error v) :: more) ∨ late = [] ∧ after = [] ∧
    Fault.thrown v ∈ faults
  /-- else control goes where it was to go, and only drops variables on its way -/
  goesOn : ∀ early v late, events = early ++ .settle g.fields.pending v :: late → v.isNull = true →
    ∃ drops ev more, late = drops ++ ev :: more ∧ (∀ d ∈ drops, ∃ x, d = .clear x) ∧
      g.GoesOn tags (g.bound early) ev

/-- Behind the final code the guard only waits for control to go on. -/
theorem goesOn_of_released {jump : Option Tag} {more : List Event}
    (h : Follows (g.Step tags keeps) (.released jump) more φ) (hφ : ∀ jump, φ ≠ .released jump) :
    ∃ drops ev late, more = drops ++ ev :: late ∧ (∀ d ∈ drops, ∃ x, d = .clear x) ∧
      g.GoesOn tags (jumpValue jump) ev := by
  generalize hs : Phase.released jump = s at h
  induction h with
  | nil => exact absurd hs.symm (hφ jump)
  | @cons s t u ev more hstep hrest ih =>
    subst hs
    cases hstep with
    | elsewhere hout | enter hout => exact hout.elim
    | inside hin | inner hin | through hin => exact hin.elim
    | @drop _ x =>
      obtain ⟨drops, ev, late, rfl, hdrops, hev⟩ := ih hφ rfl
      exact ⟨.clear x :: drops, ev, late, rfl, forall_mem_cons.mpr ⟨⟨x, rfl⟩, hdrops⟩, hev⟩
    | behind => exact ⟨[], _, more, rfl, nofun, .behind⟩
    | arriveAt howner => exact ⟨[], _, more, rfl, nofun, .within howner⟩
    | arriveEnd hexit => exact ⟨[], _, more, rfl, nofun, .finish hexit⟩
    | passOn hexit howner => exact ⟨[], _, more, rfl, nofun, .further hexit howner⟩

/-- A failure goes on at once. -/
theorem raised_of_raising {v : Value} {more : List Event}
    (h : Follows (g.Step tags keeps) (.raising v) more φ) :
    (more = [] ∧ φ = .raising v) ∨ ∃ late, more = .stopped g.outer (.error v) :: late := by
  cases h with
  | nil => exact .inl ⟨rfl, rfl⟩
  | cons hstep =>
    cases hstep with
    | elsewhere hout | enter hout => exact hout.elim
    | inside hin | inner hin | through hin => exact hin.elim
    | raise => exact .inr ⟨_, rfl⟩

/-- The end of the final code is seen in the final code only. -/
theorem step_settle {v : Value} (hstep : g.Step tags keeps φ (.settle g.fields.pending v) φ') :
    ∃ failure jump, φ = .final failure jump ∧
      (v.isNull = false ∧ φ' = .raising v ∨ v.isNull = true ∧ φ' = .released jump) := by
  have hmine : g.Mine keeps (.settle g.fields.pending v) := rfl
  cases hstep with
  | elsewhere _ hnot | inside _ hnot => exact absurd hmine hnot
  | inner _ hinner => exact hinner.elim
  | through _ hthrough => exact hthrough.elim
  | reset hreset => exact hreset.elim
  | settle hnull => exact ⟨_, _, rfl, .inl ⟨hnull, rfl⟩⟩
  | release => exact ⟨_, _, rfl, .inr ⟨rfl, rfl⟩⟩

/-- Nothing is seen of a guard before it is entered. -/
theorem seen_of_idle (hkeeps : ∀ x ∈ g.fields.resources, keeps x)
    (h : Follows (g.Step tags keeps) .idle events φ) (hevents : ∀ ev ∈ events, ¬ g.IsEntry ev) :
    g.seen events = [] := by
  generalize hs : Phase.idle = s at h
  induction h with
  | nil => rfl
  | cons hstep _ ih =>
    subst hs
    obtain ⟨hev, hevents⟩ := forall_mem_cons.mp hevents
    cases hstep with
    | elsewhere _ hmine henters =>
      rw [seen, filter_cons_of_neg
        (by rw [(aside_of_not_mine hkeeps hmine henters).unseen]; decide)]
      exact ih hevents rfl
    | enter => exact absurd rfl hev
    | inside hin | inner hin | through hin => exact hin.elim

section Run

variable (hg : g.Proper)
include hg

/-- Nobody goes elsewhere before the final code is reached. -/
theorem step_leaves (hstep : g.Step tags keeps φ ev φ') (hev : g.Leaves tags ev) : φ.Completed := by
  obtain ⟨haround, hthrough, hgoto, hvisit⟩ := hev
  cases hstep with
  | elsewhere hφ | enter hφ => exact hφ.completed
  | reset hreset =>
    cases ev with
    | assign => exact haround.elim
    | _ => exact hreset.elim
  | inside _ _ hnot => exact absurd haround hnot
  | inner _ hinner =>
    cases ev with
    | visit | goto | resumeAt | finish => exact absurd (hinner.symm.trans haround) hg.own_outer
    | stopped selector outcome =>
      rcases outcome with f | (_ | v)
      · exact hinner.elim
      · exact hinner.elim
      · exact absurd (hinner.symm.trans haround) hg.own_outer
    | _ => exact hinner.elim
  | through _ hev => exact absurd hev hthrough
  | parkEnd | stop | stopParked | fail | stopHandler | stopHandlerParked | failHandler =>
    exact absurd haround hg.own_outer
  | closed | leave => exact absurd rfl hgoto
  | arrive => exact absurd rfl hvisit
  | settle | raise | release | drop | behind | arriveAt | arriveEnd | passOn => trivial
  | hold | park | parkHandler | close | handle | unhandled | waitHandler => exact haround.elim

/-- Control comes in by an entry only, and only from outside. -/
theorem step_entry (hstep : g.Step tags keeps φ ev φ') (hentry : g.IsEntry ev) :
    φ.Outside ∧ φ' = .body fun _ => .null := by
  obtain ⟨v, rfl⟩ := exists_of_isEntry g hentry
  have hmine : g.Mine keeps (.assign g.own v) := .inl mem_cons_self
  obtain ⟨⟨hown₁, hown₂, hown₃⟩, -, -⟩ := steering_ne hg.steering
  have hapart : g.own ∉ g.fields.resources := hg.apart _ mem_cons_self
  generalize hev : Event.assign g.own v = ev at hstep
  cases hstep with
  | enter hφ => exact ⟨hφ, rfl⟩
  | elsewhere hφ hnot | inside hφ hnot => exact absurd (hev ▸ hmine) hnot
  | inner hφ hinner =>
    subst hev
    exact hinner.elim
  | through hφ hthrough =>
    subst hev
    exact hthrough.elim
  | reset hreset =>
    subst hev
    rcases hreset with ⟨heq, -⟩ | ⟨heq, -⟩ | ⟨heq, -⟩
    · exact absurd heq hown₁
    · exact absurd heq hown₂
    · exact absurd heq hown₃
  | hold hx =>
    cases hev
    exact absurd hx hapart
  | park | parkHandler =>
    injection hev with heq
    exact absurd heq hown₃
  | passOn hexit =>
    cases hev
    exact absurd mem_cons_self (hg.exit _ hexit).1
  | _ => cases hev

/-- **Every stay is as it should be.** -/
theorem orderly_of_follows (hkeeps : ∀ x ∈ g.fields.resources, keeps x) {before after : List Event}
    {faults : List Fault} {ended : Prop}
    (h : Follows (g.Step tags keeps) .idle (before ++ ev :: events ++ after) φ)
    (hentry : g.IsEntry ev) (hevents : ∀ ev ∈ events, ¬ g.IsEntry ev)
    (hafter : after = [] ∨ ∃ ev more, after = ev :: more ∧ g.IsEntry ev)
    (hloose : φ.Loose ∨ ∃ v, φ = .raising v ∧ Fault.thrown v ∈ faults)
    (hended : ended → φ.Completed) : g.Orderly tags events after faults ended := by
  obtain ⟨φ₃, hstay, hlate⟩ := h.of_append
  obtain ⟨φ₁, -, hstay⟩ := hstay.of_append
  cases hstay with
  | @cons _ φ₂ _ _ _ hstep hrest =>
    obtain ⟨-, rfl⟩ := step_entry hg hstep hentry
    have htracks := (tracks_entered g).run hg hkeeps hrest hevents
    rw [nil_append] at htracks
    -- what is known of the phase in which the stay stops
    have hstop : φ₃.Outside ∨
        after = [] ∧ (φ₃.Inside ∧ ¬ ended ∨ ∃ v, φ₃ = .raising v ∧ Fault.thrown v ∈ faults) := by
      rcases hafter with rfl | ⟨ev', more, rfl, hev'⟩
      · cases hlate
        rcases hloose with (hin | hout) | hraising
        · exact .inr ⟨rfl, .inl ⟨hin, fun h => hin.not_completed (hended h)⟩⟩
        · exact .inl hout
        · exact .inr ⟨rfl, .inr hraising⟩
      · cases hlate with
        | cons hstep' => exact .inl (step_entry hg hstep' hev').1
    -- the end of the final code is seen in the phase of the final code
    have hsettle : ∀ {early v late}, events = early ++ .settle g.fields.pending v :: late →
        ∃ failure jump φ', g.Tracks early (.final failure jump) ∧
          Follows (g.Step tags keeps) φ' late φ₃ ∧
          (v.isNull = false ∧ φ' = .raising v ∨ v.isNull = true ∧ φ' = .released jump) := by
      intro early v late heq
      rw [heq] at hrest hevents
      obtain ⟨φ₄, hearly, hlater⟩ := hrest.of_append
      have htracks := (tracks_entered g).run hg hkeeps hearly fun ev hev =>
        hevents ev (mem_append_left _ hev)
      rw [nil_append] at htracks
      cases hlater with
      | cons hstep' hlater =>
        obtain ⟨failure, jump, rfl, hφ'⟩ := step_settle hstep'
        exact ⟨failure, jump, _, htracks, hlater, hφ'⟩
    refine ⟨?_, fun early ev late heq hev => ?_, fun early v late heq hnull => ?_,
      fun early v late heq hnull => ?_⟩
    · obtain ⟨c, hc, hcompleted, hinside⟩ := htracks.script
      refine ⟨c, hc, ?_⟩
      rcases hstop with hout | ⟨hafter, ⟨hin, hnot⟩ | ⟨v, rfl, -⟩⟩
      · exact .inl (hcompleted hout.completed)
      · exact .inr ⟨hafter, hnot, hinside hin⟩
      · exact .inl (hcompleted trivial)
    · subst heq
      obtain ⟨φ₄, hearly, hlater⟩ := hrest.of_append
      have htracks := (tracks_entered g).run hg hkeeps hearly fun ev hev =>
        hevents ev (mem_append_left _ hev)
      cases hlater with
      | cons hstep' =>
        obtain ⟨c, -, hcompleted, -⟩ := htracks.script
        have hfinal := (hcompleted (step_leaves hg hstep' hev)).subset
            (mem_append_right _ (mem_singleton_self _))
        exact mem_of_mem_filter hfinal
    · obtain ⟨failure, jump, φ', -, hlater, ⟨-, rfl⟩ | ⟨hnot, -⟩⟩ := hsettle heq
      · rcases raised_of_raising hlater with ⟨rfl, rfl⟩ | hraised
        · rcases hstop with hout | ⟨hafter, ⟨hin, -⟩ | ⟨v', heq', hmem⟩⟩
          · exact hout.elim
          · exact hin.elim
          · cases heq'
            exact .inr ⟨rfl, hafter, hmem⟩
        · exact .inl hraised
      · rw [hnull] at hnot
        cases hnot
    · obtain ⟨failure, jump, φ', htracks', hlater, ⟨hnot, -⟩ | ⟨-, rfl⟩⟩ := hsettle heq
      · rw [hnull] at hnot
        cases hnot
      · have hne : ∀ jump, φ₃ ≠ .released jump := by
          rintro jump rfl
          rcases hstop with hout | ⟨-, ⟨hin, -⟩ | ⟨v', heq', -⟩⟩
          · exact hout.elim
          · exact hin.elim
          · cases heq'
        obtain ⟨drops, ev', more, rfl, hdrops, hgoes⟩ := goesOn_of_released hlater hne
        exact ⟨drops, ev', more, rfl, hdrops, htracks'.1 ▸ hgoes⟩

end Run

end Guard

namespace Lowering

namespace Plan

variable {Γ : Plan} {p : Procedure} {settings : Settings} {cls : GeneratorClass}

/-- The resources of a guard that nothing assigns to are known to hold what they were given. -/
theorem Governs.kept_of_not_stored (h : Γ.Governs p settings cls) {G : Site} (hG : G ∈ Γ.sites)
    {x : SymbolId} (hx : x ∈ G.fields.resources)
    (hstores : x ∉ Stmt.storesAll settings.markers p.resolve.1.body) : Γ.kept x := by
  refine (h.kept x).mpr ⟨?_, hstores⟩
  rw [Stmt.resourcesAll, ← resources_of_serves h.tries]
  exact mem_flatMap.mpr ⟨G, hG, hx⟩

/-- The variables of the guards of a plan are different ones. -/
theorem Sound.proper (hΓ : Γ.Sound) {G : Site} (hG : G ∈ Γ.sites) : (Γ.guard G).Proper where
  own_outer := by
    intro heq
    have hselector : Γ.selectorOf G.outer = G.selector := heq.symm
    exact hΓ.outer_ne hG (hΓ.selectorOf_mem_steering (hΓ.outer_isMachine hG) hG
      (hselector ▸ mem_cons_self))
  steering := (hΓ.regular G hG).nodup
  resources := (nodup_flatMap.mp hΓ.resources).1 G hG
  apart := fun x hx hres => (hΓ.lies G hG).resources x hres ((hΓ.lies G hG).steers x hx)
  exit := by
    intro x hx
    replace hx : Γ.exitOf G.outer = some x := hx
    rcases hΓ.outer_isMachine hG with hroot | ⟨G', hG', hid⟩
    · rw [hroot, hΓ.exitOf_root] at hx
      cases hx
    · rw [← hid, hΓ.exitOf_id hG'] at hx
      cases hx
      have hmem : G'.fields.pendingJump ∈ G'.steering := by simp [Site.steering]
      refine ⟨fun hsteering => hΓ.outer_ne hG ?_, fun hres => ?_⟩
      · rw [← hid, hΓ.steering_inj hG' hG hmem hsteering]
      · exact (hΓ.lies G hG).resources _ hres ((hΓ.lies G' hG').steers _ hmem)

/-- A machine that may be run has not finished. -/
theorem Resting.not_finished (hΓ : Γ.Sound) {ψ : Phases} {vars : Store} (h : Γ.Resting ψ vars) :
    vars.get? Γ.selector ≠ some .finished := by
  obtain ⟨place, z, hselector, hstands, -⟩ :=
    h.rest .root ⟨.inl rfl, fun G hG hid => absurd hid (hΓ.not_root G hG)⟩
  rw [hΓ.selectorOf_root] at hselector
  intro hfinished
  have heq : (Int64.ofNat (place + 1)) = Int64.ofNat 0 :=
    Value.int.inj (Option.some.inj (hselector.symm.trans hfinished))
  have hint := congrArg Int64.toInt heq
  rw [Int64.toInt_ofNat_of_lt (hΓ.places_lt _ _ _ hstands)] at hint
  cases hint

end Plan

end Lowering

open Lowering

/-- In every session, the stays in a guard whose resources nothing assigns to are as they should be,
and nothing is seen of it before it is entered. -/
theorem Lowering.Plan.Governs.stays {Γ : Plan} {p : Procedure} {settings : Settings}
    {cls : GeneratorClass} (h : Γ.Governs p settings cls) (hfits : cls.Fits) {G : Site}
    (hG : G ∈ Γ.sites) (hresources : ∀ x ∈ G.fields.resources,
      x ∉ Stmt.storesAll settings.markers p.resolve.1.body)
    {past : List Event} {faults : List Fault} {i : Instance} (hsession : Session cls past faults i)
    (hfaults : ∀ f ∈ faults, f.isCatchable) :
    (∀ before ev events after, past = before ++ ev :: events ++ after → (Γ.guard G).IsEntry ev →
      (∀ ev ∈ events, ¬ (Γ.guard G).IsEntry ev) →
      (after = [] ∨ ∃ ev more, after = ev :: more ∧ (Γ.guard G).IsEntry ev) →
      (Γ.guard G).Orderly cls.tags events after faults (i.selector? = some .finished)) ∧
    ∀ events after, past = events ++ after → (∀ ev ∈ events, ¬ (Γ.guard G).IsEntry ev) →
      (Γ.guard G).seen events = [] := by
  have hΓ := h.sound hfits
  have hkeeps : ∀ x ∈ (Γ.guard G).fields.resources, Γ.kept x :=
    fun x hx => h.kept_of_not_stored hG hx (hresources x hx)
  obtain ⟨hcls, ψ, hpast, hidle⟩ := h.session hfits hsession
  -- what the guard makes of the whole session
  have hguard : Follows ((Γ.guard G).Step Γ.tags Γ.kept) .idle past (ψ G.id) :=
    hpast.map (fun ψ => ψ G.id) fun _ _ _ hstep => hstep.guards G hG
  have hloose : (ψ G.id).Loose ∨ ∃ v, ψ G.id = .raising v ∧ Fault.thrown v ∈ faults := by
    rcases hidle with hresting | ⟨-, hleft⟩
    · exact .inl (hresting.loose G hG)
    · exact (hleft hfaults G hG).imp_left .inr
  have hended : i.selector? = some .finished → (ψ G.id).Completed := by
    intro hfinished
    rcases hidle with hresting | ⟨-, hleft⟩
    · refine absurd ?_ (hresting.not_finished hΓ)
      rw [h.selector, ← hcls]
      exact hfinished
    · rcases hleft hfaults G hG with houtside | ⟨v, hv, -⟩
      · exact houtside.completed
      · rw [hv]
        trivial
  refine ⟨fun before ev events after heq hentry hevents hafter => ?_,
    fun events after heq hevents => ?_⟩
  · rw [← h.tags]
    exact Guard.orderly_of_follows (hΓ.proper hG) hkeeps
      (heq ▸ hguard) hentry hevents hafter hloose hended
  · obtain ⟨φ, hearly, -⟩ := (heq ▸ hguard : Follows _ _ (events ++ after) _).of_append
    exact Guard.seen_of_idle hkeeps hearly hevents

/-- **Guards keep to the scripts of their tries.** Every try that is lowered has a guard with its
resources, its handlers and its final code, and every guard is that of such a try. Control is in a
guard from one entry to the next one, or to the end of what has been seen of the generator. If
nothing but their first values is ever assigned to the resources of the guard, and no fault has been
told that handlers may not see, then whatever number of calls a stay takes:
* resources with a value are closed, each one once and the last one first, after the body has
  stopped and before a handler or the final code runs;
* one handler at most runs, which is the first one that takes the failure of the body, or else the
  first one of closing;
* the final code is reached once after that: the machine around the guard goes nowhere else before,
  and only while the generator rests in the body or in a handler is it still to come;
* if it runs to its end, then the failure of the handler, or the one that no handler takes, is
  raised; else control goes where the body or the handler has left for, or behind the guard. -/
theorem Procedure.lower_guards_orderly (p : Procedure) (settings : Settings) (cls : GeneratorClass)
    (hlower : p.lower settings = .ok cls) (hfits : cls.Fits) :
    (∀ t ∈ Stmt.triesAll settings.markers p.resolve.1.body, ∃ g ∈ cls.guards, g.Lowers cls t) ∧
    ∀ g ∈ cls.guards, (∃ t ∈ Stmt.triesAll settings.markers p.resolve.1.body, g.Lowers cls t) ∧
      ((∀ x ∈ g.fields.resources, x ∉ Stmt.storesAll settings.markers p.resolve.1.body) →
        ∀ past faults i, Session cls past faults i → (∀ f ∈ faults, f.isCatchable) →
          (∀ before ev events after, past = before ++ ev :: events ++ after → g.IsEntry ev →
            (∀ ev ∈ events, ¬ g.IsEntry ev) →
            (after = [] ∨ ∃ ev more, after = ev :: more ∧ g.IsEntry ev) →
            g.Orderly cls.tags events after faults (i.selector? = some .finished)) ∧
          ∀ events after, past = events ++ after → (∀ ev ∈ events, ¬ g.IsEntry ev) →
          g.seen events = []) := by
  obtain ⟨Γ, h⟩ := p.lower_governed hlower
  have hΓ := h.sound hfits
  obtain ⟨hsites, htries⟩ := forall₂_mem h.tries
  refine ⟨fun t ht => ?_, fun g hg => ?_⟩
  · obtain ⟨G, hG, hserves⟩ := htries t ht
    exact ⟨Γ.guard G, h.mem_guards hΓ hG, h.guard_lowers hΓ hG hserves⟩
  · obtain ⟨G, hG, rfl⟩ := h.guards hΓ hg
    obtain ⟨t, ht, hserves⟩ := hsites G hG
    exact ⟨⟨t, ht, h.guard_lowers hΓ hG hserves⟩,
      fun hresources _ _ _ => h.stays hfits hG hresources⟩

/-- A procedure that emits values in the body, the handler and the final code of a guard. -/
def Procedure.guardedResource : Procedure where
  name := "resource"
  params := []
  returnType := none
  body := [.tryCatch [⟨⟨"a", none⟩, ⟨"Resource", []⟩,
    some (.call "resource" [.literal (.str "a")])⟩]
    [.expr (.call "step" [.int 7]) .unknown, .raise (.call "error" [.literal (.str "x")]) .unknown]
    [.mk ⟨"e", none⟩ [⟨"Exception", []⟩] [.expr (.call "step" [.int 8]) .unknown]]
    (some [.expr (.call "step" [.int 9]) .unknown]) .unknown]
  location := .unknown

/-- The stay in the guard of that procedure, which takes four calls. -/
theorem Procedure.lower_guards_orderly_resource : ∃ cls past faults i g t before ev events,
    guardedResource.lower {} = .ok cls ∧ g ∈ cls.guards ∧ t ∈ guardedResource.resolve.1.body ∧
      g.Lowers cls t ∧ Session cls past faults i ∧ past = before ++ ev :: events ++ [] ∧
      (g.seen events).length = 6 ∧
      g.Orderly cls.tags events [] faults (i.selector? = some .finished) := by
  have htrial : (guardedResource.trial (Functions.builtins.host 0) 20 4).any (fun t =>
      decide (t.cls.Fits ∧ (∀ f ∈ t.faults, f.isCatchable) ∧ ∃ g ∈ t.cls.guards,
        (∀ x ∈ g.fields.resources,
          x ∉ Stmt.storesAll ({} : Settings).markers guardedResource.resolve.1.body) ∧
        (∃ ev ∈ (t.past.dropWhile fun ev => !g.IsEntry ev).head?, g.IsEntry ev ∧
          (∀ ev ∈ (t.past.dropWhile fun ev => !g.IsEntry ev).tail, ¬ g.IsEntry ev) ∧
          (g.seen (t.past.dropWhile fun ev => !g.IsEntry ev).tail).length = 6))) =
            true := by decide +kernel
  have htries : Stmt.triesAll ({} : Settings).markers guardedResource.resolve.1.body =
      guardedResource.resolve.1.body := rfl
  obtain ⟨t, hlower, hsession, hgood⟩ := session_of_trial htrial
  obtain ⟨hfits, hfaults, g, hg, hresources, ev, hhead, hentry, hevents, hseen⟩ :=
    of_decide_eq_true hgood
  have hpast := takeWhile_append_dropWhile (p := fun ev => !g.IsEntry ev) (l := t.past)
  rw [← cons_head?_tail hhead, ← List.append_nil (_ ++ _)] at hpast
  obtain ⟨⟨u, hu, hlowers⟩, hstays⟩ :=
    (lower_guards_orderly guardedResource {} t.cls hlower hfits).2 g hg
  obtain ⟨horderly, -⟩ := hstays hresources t.past t.faults t.generator hsession hfaults
  exact ⟨t.cls, t.past, t.faults, t.generator, g, u, _, ev, _, hlower, hg, htries ▸ hu, hlowers,
    hsession, hpast.symm, hseen, horderly _ _ _ _ hpast.symm hentry hevents (.inl rfl)⟩

/-- A procedure where the first value of a resource assigns to the resource before. -/
def Procedure.forgottenResource : Procedure where
  name := "f"
  params := []
  returnType := none
  body := [.tryCatch [⟨⟨"a", none⟩, ⟨"Resource", []⟩,
    some (.call "resource" [.literal (.str "a")])⟩,
      ⟨⟨"b", none⟩, ⟨"Resource", []⟩, some (.assign ⟨"a", none⟩ none (.literal .null))⟩]
    [.expr (.call "step" [.int 1]) .unknown] [] none .unknown]
  location := .unknown

/-- Whether a resource is closed. -/
def Event.isClose : Event → Bool
  | .close _ _ _ => true
  | _ => false

/-- The first resource of that procedure gets a value and is never closed, though the body of the
try does not assign to it. -/
theorem Procedure.forgotten_resource_not_closed : ∃ cls past faults i g x,
    forgottenResource.lower {} = .ok cls ∧ Session cls past faults i ∧
      (∀ f ∈ faults, f.isCatchable) ∧ i.isFinished ∧
      g ∈ cls.guards ∧ x ∈ g.fields.resources ∧
      (∃ ev ∈ past, (Guard.stored x .null ev).isNull = false) ∧
      ∀ ev ∈ past, ev.isClose = false := by
  have htrial : (forgottenResource.trial (Functions.builtins.host 0) 20 2).any (fun t =>
      decide ((∀ f ∈ t.faults, f.isCatchable) ∧ t.generator.isFinished ∧ ∃ g ∈ t.cls.guards,
        ∃ x ∈ g.fields.resources,
        (∃ ev ∈ t.past, (Guard.stored x .null ev).isNull = false) ∧
        ∀ ev ∈ t.past, ev.isClose = false)) = true := by
    decide +kernel
  obtain ⟨t, hlower, hsession, hgood⟩ := session_of_trial htrial
  obtain ⟨hfaults, hfinished, g, hg, x, hx, hgiven, hnever⟩ := of_decide_eq_true hgood
  exact ⟨t.cls, t.past, t.faults, t.generator, g, x, hlower, hsession, hfaults, hfinished, hg, hx,
    hgiven, hnever⟩

end Resumable
