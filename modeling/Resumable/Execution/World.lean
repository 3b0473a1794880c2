import Resumable.Execution.Fault
import Resumable.Generator

/-!
# What running changes

* a store gives values to variables;
* a generator is a class with a store and at most one value that was emitted and not yet taken;
* the world holds what outlives a call: positions of iterators, failures added to exceptions,
  which resources are closed, the journal and the printed lines;
* identities are places in lists that only grow.
-/

namespace Resumable

/-! ## Stores -/

/-- Values of variables, one for each variable at most. -/
structure Store where
  entries : List (SymbolId × Value)
  deriving Inhabited

namespace Store

/-- No values. -/
def empty : Store := ⟨[]⟩

/-- The value of a variable. -/
def get? (s : Store) (x : SymbolId) : Option Value := s.entries.lookup x

/-- The entries with a new value for a variable. -/
def setEntry (x : SymbolId) (v : Value) : List (SymbolId × Value) → List (SymbolId × Value)
  | [] => [(x, v)]
  | (y, w) :: rest => if x = y then (x, v) :: rest else (y, w) :: setEntry x v rest

/-- Gives a variable a value. -/
def set (s : Store) (x : SymbolId) (v : Value) : Store := ⟨setEntry x v s.entries⟩

theorem lookup_setEntry (x y : SymbolId) (v : Value) (es : List (SymbolId × Value)) :
    (setEntry x v es).lookup y = if y = x then some v else es.lookup y := by
  induction es with
  | nil =>
    by_cases h : y = x
    · simp [setEntry, h]
    · have hne : (y == x) = false := by simpa using h
      simp [setEntry, List.lookup_cons, h, hne]
  | cons e es ih =>
    obtain ⟨z, w⟩ := e
    by_cases hxz : x = z
    · subst hxz
      by_cases h : y = x
      · simp [setEntry, h]
      · have hne : (y == x) = false := by simpa using h
        simp [setEntry, List.lookup_cons, h, hne]
    · by_cases hyz : y = z
      · subst hyz
        simp [setEntry, hxz, Ne.symm hxz]
      · have hne : (y == z) = false := by simpa using hyz
        simp [setEntry, List.lookup_cons, hxz, hne, ih]

/-- A variable has the value that it was given last. -/
@[simp] theorem get?_set (s : Store) (x y : SymbolId) (v : Value) :
    (s.set x v).get? y = if y = x then some v else s.get? y :=
  lookup_setEntry x y v s.entries

end Store

/-! ## Generators -/

/-- A running generator. -/
structure Instance where
  /-- what it is an instance of -/
  cls : GeneratorClass
  /-- the values of its fields -/
  vars : Store
  /-- a value that was emitted and not yet taken -/
  buffered : Option Value
  deriving Inhabited

/-- What an iterator takes its values from. -/
inductive Source where
  /-- the rest of a list -/
  | list (rest : List Value)
  /-- the integers from `next` to below `stop` -/
  | range (next stop : Int64)
  /-- a generator -/
  | generator (g : Instance)
  /-- a generator that is running right now -/
  | busy
  deriving Inhabited

/-! ## The world -/

/-- What outlives a call. -/
structure World where
  /-- the source of each iterator -/
  iterators : Array Source
  /-- the failures that were added to each exception -/
  suppressed : Array (List Value)
  /-- whether each resource is closed -/
  closed : Array Bool
  /-- what was opened, closed and traced -/
  journal : Array String
  /-- the printed lines -/
  printed : Array String
  deriving Inhabited

/-- A computation that changes the world. What it changed stays changed when it halts. -/
abbrev Effect := EStateM Halt World

namespace World

/-- The world before anything has happened. -/
def empty : World := ⟨#[], #[], #[], #[], #[]⟩

/-- Stops with a fault. -/
def fail {α : Type} (f : Fault) : Effect α := throw (.fault f)

/-- A new exception. -/
def newException (className message : String) : Effect Value := fun w =>
  .ok (.exception ⟨w.suppressed.size, className, message⟩)
    { w with suppressed := w.suppressed.push [] }

/-- Raises a new exception. -/
def raise {α : Type} (className message : String) : Effect α := do
  fail (.thrown (← newException className message))

/-- A new iterator. -/
def newIterator (source : Source) : Effect Value := fun w =>
  .ok (.iterator w.iterators.size) { w with iterators := w.iterators.push source }

/-- Puts a line in the journal. -/
def record (line : String) : Effect Unit :=
  modify fun w => { w with journal := w.journal.push line }

/-- Empties the journal. -/
def clearJournal (w : World) : World := { w with journal := #[] }

/-- Prints a line. -/
def print (line : String) : Effect Unit :=
  modify fun w => { w with printed := w.printed.push line }

/-- A new resource, which is open. -/
def openResource (name : String) (failsOnClose : Bool) : Effect Value := do
  record ("open " ++ name)
  fun w => .ok (.resource ⟨w.closed.size, name, failsOnClose⟩)
    { w with closed := w.closed.push false }

/-- Whether a resource is closed. -/
def isClosed (w : World) (r : ResourceRef) : Bool := w.closed[r.id]?.getD false

/-- Closes a resource; one that is closed stays so without further ado. -/
def closeResource (r : ResourceRef) : Effect Unit := do
  if (← get).isClosed r then return ()
  modify fun w => { w with closed := w.closed.setIfInBounds r.id true }
  record ("close " ++ r.name)
  if r.failsOnClose then raise "IOException" ("failed to close " ++ r.name)

/-- The failures that were added to an exception. -/
def suppressedBy (w : World) (e : ExceptionRef) : List Value := w.suppressed[e.id]?.getD []

/-- Adds a failure to an exception; any other value takes none. -/
def addSuppressed (primary failure : Value) : Effect Unit :=
  match primary with
  | .exception e => modify fun w =>
    { w with suppressed := w.suppressed.modify e.id fun failures => failures ++ [failure] }
  | _ => pure ()

end World

end Resumable
