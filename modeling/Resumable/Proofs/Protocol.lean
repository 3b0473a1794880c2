import Mathlib.Logic.Function.Basic
import Resumable.Proofs.Pull
import Resumable.Proofs.Record

/-!
# The protocol of guards

What a guard may be seen to do, from one entry to the next and across any number of calls.

* `Guard` is a guard of a class with the place where it stands, `GeneratorClass.guards` all of them;
* a `Phase` says how far a guard has got, and `Guard.Step` what may happen in which phase: this is
  the protocol. Resources are closed when the body has stopped, before a handler is entered; a
  handler is entered for a failure that it takes, before the final code; the final code is entered
  once; and behind it the waiting failure is raised, or control goes where it was to go;
* a `Session` is a generator with all events of all calls so far.
-/

namespace Resumable

/-- A system goes by events from one state to another. -/
inductive Follows {σ : Type} (step : σ → Event → σ → Prop) : σ → List Event → σ → Prop where
  | nil {s} : Follows step s [] s
  | cons {s t u ev events} (hstep : step s ev t) (hrest : Follows step t events u) :
    Follows step s (ev :: events) u

namespace Follows

variable {σ τ : Type} {step : σ → Event → σ → Prop} {s t u : σ} {events more : List Event}

theorem append (h : Follows step s events t) (hmore : Follows step t more u) :
    Follows step s (events ++ more) u := by
  induction h with
  | nil => exact hmore
  | cons hstep _ ih => exact .cons hstep (ih hmore)

theorem map {step' : τ → Event → τ → Prop} (f : σ → τ)
    (hf : ∀ s ev t, step s ev t → step' (f s) ev (f t)) (h : Follows step s events t) :
    Follows step' (f s) events (f t) := by
  induction h with
  | nil => exact .nil
  | cons hstep _ ih => exact .cons (hf _ _ _ hstep) ih

/-- What holds of every event that a step may make holds of all events of a run. -/
theorem forall_mem {P : Event → Prop} (hP : ∀ s ev t, step s ev t → P ev)
    (h : Follows step s events t) : ∀ ev ∈ events, P ev := by
  induction h with
  | nil =>
    intro ev hev
    cases hev
  | cons hstep _ ih =>
    intro ev hev
    rcases List.mem_cons.mp hev with rfl | hev
    · exact hP _ _ _ hstep
    · exact ih ev hev

end Follows

/-! ## Guards -/

/-- A guard of a class and where it stands. -/
structure Guard where
  /-- the machine in which it stands -/
  place : MachineId
  /-- the selector of that machine -/
  outer : SymbolId
  /-- the field in which that machine leaves tags of machines around it, if there are any -/
  exit : Option SymbolId
  /-- the number of its state; its final code starts at the next one -/
  number : Nat
  /-- the tag of its final code; the next one is that of what is behind it -/
  finalTag : Tag
  /-- the machine that it runs, the body and the handlers -/
  machine : Machine
  /-- its fields -/
  fields : GuardFields

namespace Guard

/-- The selector of the machine that the guard runs. -/
def own (g : Guard) : SymbolId := g.machine.selector

/-- The tag of what is behind the guard. -/
def endTag (g : Guard) : Tag := ⟨g.finalTag.index + 1⟩

/-- The fields that steer the guard. -/
def steering (g : Guard) : List SymbolId :=
  [g.own, g.fields.inHandler, g.fields.pending, g.fields.pendingJump]

theorem steering_ne {own handler pending jump : SymbolId}
    (h : [own, handler, pending, jump].Nodup) :
    (own ≠ handler ∧ own ≠ pending ∧ own ≠ jump) ∧ (handler ≠ pending ∧ handler ≠ jump) ∧
      pending ≠ jump := by
  simpa using h

end Guard

/-- The tag that the first op jumps to. -/
def jumpTag : List Op → Tag
  | .jump tag :: _ => tag
  | _ => .finished

mutual

/-- The guards in a machine, each before those in the machine that it runs. -/
def Machine.guards (exit : Option SymbolId) : Machine → List Guard
  | .mk id selector states => guardsInStates id selector exit states

/-- The guards in states. -/
def guardsInStates (place : MachineId) (outer : SymbolId) (exit : Option SymbolId) :
    List MachineState → List Guard
  | [] => []
  | .mk id ops :: states =>
    guardsInOps place outer exit id.number ops ++ guardsInStates place outer exit states

/-- The guards in the ops of the state of a number. -/
def guardsInOps (place : MachineId) (outer : SymbolId) (exit : Option SymbolId) (number : Nat) :
    List Op → List Guard
  | [] => []
  | op :: ops => guardsInOp place outer exit number (jumpTag ops) op ++
      guardsInOps place outer exit number ops

/-- The guards in an op with a jump behind it. -/
def guardsInOp (place : MachineId) (outer : SymbolId) (exit : Option SymbolId) (number : Nat)
    (finalTag : Tag) :
    Op → List Guard
  | .guarded machine fields =>
    ⟨place, outer, exit, number, finalTag, machine, fields⟩ :: machine.guards
      (some fields.pendingJump)
  | .cond _ yes no =>
    guardsInOps place outer exit number yes ++ guardsInOps place outer exit number no
  | .synchronized _ body => guardsInOps place outer exit number body
  | _ => []

end

/-- All guards of a class. -/
def GeneratorClass.guards (cls : GeneratorClass) : List Guard := cls.advance.guards none

/-! ## Phases -/

/-- The value that a tag is in a field. -/
def Tag.value (tag : Tag) : Value := .int (Int64.ofNat tag.index)

/-- How far a guard has got. -/
inductive Phase where
  /-- control is outside -/
  | idle
  /-- control is in the body, or in the resources, which have those values -/
  | body (held : SymbolId → Value)
  /-- control is in a handler -/
  | handling
  /-- the body, with those values of the resources, or a handler is about to leave for a tag -/
  | parked (held : Option (SymbolId → Value)) (tag : Tag)
  /-- the body has stopped, and resources are being closed: those to come and their values, the
  failure so far, and the tag to leave for -/
  | closing (rest : List SymbolId) (held : SymbolId → Value) (failure : Option Value)
    (jump : Option Tag)
  /-- a handler has failed -/
  | failed (failure : Value)
  /-- the final code is due, with what is to come of it -/
  | leaving (failure : Option Value) (jump : Option Tag)
  /-- control is on the way to the final code -/
  | arriving (failure : Option Value) (jump : Option Tag)
  /-- control is in the final code, or has left it by a failure or a transfer of its own -/
  | final (failure : Option Value) (jump : Option Tag)
  /-- the final code is over, and the failure goes on -/
  | raising (failure : Value)
  /-- the final code is over, and control goes on -/
  | released (jump : Option Tag)

namespace Phase

/-- Control is in the body or in a handler. -/
def Inside : Phase → Prop
  | body _ => True
  | handling => True
  | _ => False

/-- Control is neither in the body nor in a handler, nor on its way from there. -/
def Outside : Phase → Prop
  | idle => True
  | final _ _ => True
  | _ => False

end Phase

namespace Guard

variable (g : Guard) (tags : TagTable) (keeps : SymbolId → Prop)

/-! ## Events of a guard -/

/-- The event is about what belongs to the guard. The variables of resources count only if all
stores to them are meant to be seen. -/
def Mine : Event → Prop
  | .broke _ => True
  | .passed _ _ => True
  | .assign x _ => x ∈ g.steering ∨ x ∈ g.fields.resources ∧ keeps x
  | .clear x => x ∈ g.steering ∨ x ∈ g.fields.resources ∧ keeps x
  | .visit selector _ => selector = g.own
  | .goto selector _ => selector = g.own
  | .resumeAt selector _ => selector = g.own
  | .finish selector => selector = g.own
  | .stopped selector _ => selector = g.own
  | .close x _ _ => x ∈ g.fields.resources
  | .handle selector _ _ => selector = g.own
  | .wait pending _ => pending = g.fields.pending
  | .settle pending _ => pending = g.fields.pending

/-- The event is about the machine in which the guard stands. -/
def Around : Event → Prop
  | .visit selector _ => selector = g.outer
  | .goto selector _ => selector = g.outer
  | .resumeAt selector _ => selector = g.outer
  | .finish selector => selector = g.outer
  | .stopped selector _ => selector = g.outer
  | _ => False

/-- Control comes to the state of the guard or to its final code. -/
def Enters : Event → Prop
  | .visit selector number => selector = g.outer ∧ (number = g.number ∨ number = g.number + 1)
  | _ => False

/-- The machine of the guard goes on, or suspends. -/
def Inner : Event → Prop
  | .visit selector _ => selector = g.own
  | .goto selector _ => selector = g.own
  | .resumeAt selector _ => selector = g.own
  | .finish selector => selector = g.own
  | .stopped selector (.ok (some _)) => selector = g.own
  | _ => False

/-- Control comes to the state of the guard, or the machine around it suspends. -/
def Through : Event → Prop
  | .goto selector tag => selector = g.outer ∧ tags.target? tag = some ⟨g.number⟩
  | .visit selector number => selector = g.outer ∧ number = g.number
  | .stopped selector (.ok (some _)) => selector = g.outer
  | _ => False

/-- A field of the guard gets its first value. -/
def Resets : Event → Prop
  | .assign x v => x = g.fields.inHandler ∧ v = .bool false ∨ x = g.fields.pending ∧ v = .null ∨
    x = g.fields.pendingJump ∧ v = .int (-1)
  | _ => False

/-- The variables that are watched among these held nothing. -/
def Empty (held : SymbolId → Value) (xs : List SymbolId) : Prop :=
  ∀ x ∈ xs, keeps x → held x = .null

/-- The first handler that takes a failure. -/
def handler? (failure : Value) : Option Handler :=
  g.fields.handlers.find? fun h => failure.isAnyOf h.types

/-! ## The protocol -/

/-- **The protocol.** What may happen in a phase, and what phase is next. -/
inductive Step : Phase → Event → Phase → Prop where
  /-- what happens elsewhere is of no concern, and nobody else comes to the guard -/
  | elsewhere {φ ev} (hφ : φ.Outside) (hmine : ¬ g.Mine keeps ev) (henters : ¬ g.Enters ev) :
    Step φ ev φ
  /-- the guard is entered by a reset of its machine -/
  | enter {φ} (hφ : φ.Outside) : Step φ (.assign g.own (.int 1)) (.body fun _ => .null)
  | reset {held ev} (hev : g.Resets ev) : Step (.body held) ev (.body held)
  /-- a resource gets a value -/
  | hold {held x v} (hx : x ∈ g.fields.resources) (hkeeps : keeps x) :
      Step (.body held) (.assign x v) (.body (Function.update held x v))
  /-- while control is inside, the machine around the guard does nothing else -/
  | inside {φ ev} (hφ : φ.Inside) (hmine : ¬ g.Mine keeps ev) (haround : ¬ g.Around ev) :
    Step φ ev φ
  | inner {φ ev} (hφ : φ.Inside) (hev : g.Inner ev) : Step φ ev φ
  | through {φ ev} (hφ : φ.Inside) (hev : g.Through tags ev) : Step φ ev φ
  /-- the body leaves for a tag -/
  | park {held tag} : Step (.body held) (.assign g.fields.pendingJump tag.value)
    (.parked (some held) tag)
  /-- the handler leaves for a tag -/
  | parkHandler {tag} : Step .handling (.assign g.fields.pendingJump tag.value) (.parked none tag)
  | parkEnd {held tag} : Step (.parked held tag) (.finish g.own) (.parked held tag)
  /-- the body ends -/
  | stop {held} : Step (.body held) (.stopped g.own (.ok none))
    (.closing g.fields.resources.reverse held none none)
  | stopParked {held tag} : Step (.parked (some held) tag) (.stopped g.own (.ok none))
      (.closing g.fields.resources.reverse held none (some tag))
  /-- the body fails -/
  | fail {held failure} : Step (.body held) (.stopped g.own (.error failure))
      (.closing g.fields.resources.reverse held (some failure) none)
  /-- a resource is closed; only those that held nothing are left out. Its failure counts if it is
  the first one -/
  | close {skipped x rest held failure jump v failure'} (hskipped : Empty keeps held skipped)
      (hv : v.isNull = false) (hheld : keeps x → v = held x) :
      Step (.closing (skipped ++ x :: rest) held failure jump) (.close x v failure')
        (.closing rest held (failure.or failure') jump)
  /-- nothing has failed -/
  | closed {rest held jump} (hrest : Empty keeps held rest) :
      Step (.closing rest held none jump) (.goto g.outer g.finalTag) (.arriving none jump)
  /-- the first handler that takes the failure is entered -/
  | handle {rest held failure jump h} (hrest : Empty keeps held rest)
    (hh : g.handler? failure = some h) :
      Step (.closing rest held (some failure) jump) (.handle g.own h.entry failure) .handling
  /-- no handler takes the failure, which has to wait for the final code -/
  | unhandled {rest held failure jump} (hrest : Empty keeps held rest)
    (hnone : g.handler? failure = none) :
      Step (.closing rest held (some failure) jump) (.wait g.fields.pending failure)
        (.leaving (some failure) none)
  /-- the handler ends -/
  | stopHandler : Step .handling (.stopped g.own (.ok none)) (.leaving none none)
  | stopHandlerParked {tag} : Step (.parked none tag) (.stopped g.own (.ok none))
    (.leaving none (some tag))
  /-- the handler fails, and its failure has to wait for the final code -/
  | failHandler {failure} : Step .handling (.stopped g.own (.error failure)) (.failed failure)
  | waitHandler {failure} : Step (.failed failure) (.wait g.fields.pending failure)
    (.leaving (some failure) none)
  /-- control goes to the final code -/
  | leave {failure jump} : Step (.leaving failure jump) (.goto g.outer g.finalTag)
    (.arriving failure jump)
  | arrive {failure jump} : Step (.arriving failure jump) (.visit g.outer (g.number + 1))
    (.final failure jump)
  /-- the final code is over, and the failure that has waited goes on -/
  | settle {failure jump} (hnull : failure.isNull = false) :
      Step (.final (some failure) jump) (.settle g.fields.pending failure) (.raising failure)
  | raise {failure} : Step (.raising failure) (.stopped g.outer (.error failure)) .idle
  /-- the final code is over, and no failure has waited; null is none -/
  | release {failure jump} (hnull : failure.getD .null = .null) :
      Step (.final failure jump) (.settle g.fields.pending .null) (.released jump)
  /-- scopes that are left drop their fields -/
  | drop {jump x} (hmine : ¬ g.Mine keeps (.clear x)) :
    Step (.released jump) (.clear x) (.released jump)
  /-- control goes on behind the guard -/
  | behind : Step (.released none) (.goto g.outer g.endTag) .idle
  /-- control goes to the tag, which belongs to the machine around the guard -/
  | arriveAt {tag} (howner : tags.owner tag = g.place) :
    Step (.released (some tag)) (.goto g.outer tag) .idle
  /-- the procedure ends -/
  | arriveEnd (hexit : g.exit = none) : Step (.released (some .finished)) (.finish g.outer) .idle
  /-- the tag belongs to a machine further out, and is left for the next guard -/
  | passOn {tag x} (hexit : g.exit = some x) (howner : tags.owner tag ≠ g.place) :
      Step (.released (some tag)) (.assign x tag.value) .idle

end Guard

/-! ## Sessions -/

namespace Instance

/-- What the machines of a generator do when it is called next. -/
def events (g : Instance) (h : Host) (fuel : Nat) (w : World) : List Event :=
  if g.buffered.isSome then [] else
    (g.cls.advance.record .events ⟨h, g.cls.tags, fuel⟩ ⟨g.vars, w⟩).1

end Instance

/-- A generator after some calls, with all events and all faults so far. Between two calls anything
may happen to the world. -/
inductive Session (cls : GeneratorClass) : List Event → List Fault → Instance → Prop where
  | new {args g} (hnew : Instance.new cls args = .ok g) : Session cls [] [] g
  | call {past faults g c host fuel w a g' w'} (hpast : Session cls past faults g)
      (hcall : g.reply host fuel c w = .ok (a, g') w') :
      Session cls (past ++ g.events host fuel w) (faults ++ a.fault?.toList) g'

end Resumable
