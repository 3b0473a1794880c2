import Resumable.Execution.Machine

/-!
# Generators

* a new generator has its parameters bound to arguments, its root selector at the start, and all
  other fields at the initial values of their types;
* asking whether there is a next value computes it and keeps it; taking it gives it away;
* a generator that fails is finished.
-/

namespace Resumable

namespace Instance

/-- Binds parameters to arguments, in order. -/
def bind (vars : Store) : List (Param × Value) → Except Fault Store
  | [] => .ok vars
  | (p, v) :: rest =>
    match p.name.symbol with
    | some x => bind (vars.set x v) rest
    | none => .error (.breach (.unresolvedParameter p.name.name))

/-- A generator that has not run yet. -/
def new (cls : GeneratorClass) (args : List Value) : Except Fault Instance := do
  if args.length ≠ cls.params.length then
    throw (.arity cls.procedure cls.params.length args.length)
  let defaults := cls.captures.toList.foldl
    (fun vars c => vars.set c.symbol (.initial c.type)) Store.empty
  let vars ← bind defaults (cls.params.zip args)
  return ⟨cls, vars.set cls.advance.selector (.ofState StateId.start.number), none⟩

/-- The value of the root selector. -/
def selector? (g : Instance) : Option Value := g.vars.get? g.cls.advance.selector

/-- Whether a generator has nothing more to give. -/
def isFinished (g : Instance) : Bool :=
  g.buffered.isNone && g.selector?.any fun v => v.same (.ofState StateId.finished.number)

/-- The value of the field of that name. -/
def field? (g : Instance) (name : String) : Option Value :=
  (g.cls.captures.toList.find? fun c => c.name == name).bind fun c => g.vars.get? c.symbol

/-- The generator with its root machine finished. -/
def finish (g : Instance) : Instance :=
  { g with vars := g.vars.set g.cls.advance.selector (.ofState StateId.finished.number) }

/-- A result of running a generator, with the generator afterwards. -/
abbrev Pulled (α : Type) := Except Fault α × Instance

/-- Runs a generator until it emits a value or finishes. -/
def advance (h : Host) (fuel : Nat) (g : Instance) : Effect (Pulled (Option Value)) := fun w =>
  match g.cls.advance.exec ⟨h, g.cls.tags, fuel⟩ ⟨g.vars, w⟩ with
  | .ok r m => .ok (.ok r, { g with vars := m.vars }) m.world
  | .error (.fault f) m => .ok (.error f, finish { g with vars := m.vars }) m.world
  | .error .outOfFuel m => .error .outOfFuel m.world

/-- Whether there is a next value. -/
def hasNext (h : Host) (fuel : Nat) (g : Instance) : Effect (Pulled Bool) := do
  if g.buffered.isSome then return (.ok true, g)
  let (r, g) ← g.advance h fuel
  match r with
  | .ok (some v) => return (.ok true, { g with buffered := some v })
  | .ok none => return (.ok false, g)
  | .error f => return (.error f, g)

/-- Takes the next value. -/
def next (h : Host) (fuel : Nat) (g : Instance) : Effect (Pulled Value) := do
  let (r, g) ← g.hasNext h fuel
  match r, g.buffered with
  | .ok true, some v => return (.ok v, { g with buffered := none })
  | .ok true, none => return (.error (.breach .bufferEmptied), g)
  | .ok false, _ => return (.error .noSuchElement, g)
  | .error f, _ => return (.error f, g)

/-- Takes the next value, if there is one. -/
def next? (h : Host) (fuel : Nat) (g : Instance) : Effect (Pulled (Option Value)) := do
  let (r, g) ← g.hasNext h fuel
  match r with
  | .ok true => do
    let (r, g) ← g.next h fuel
    return (r.map some, g)
  | .ok false => return (.ok none, g)
  | .error f => return (.error f, g)

end Instance

end Resumable
