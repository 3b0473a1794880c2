import Resumable.Symbol.Table

/-!
# Captured variables

The variables that outlive a suspension become fields of the generator.

* fields are kept in the order of their symbols, one for each symbol; a later field replaces an
  earlier one of its symbol;
* a field that holds a reference is dropped where its scope ends.
-/

namespace Resumable

/-- How long a field keeps its value. -/
inductive Liveness where
  /-- for as long as the generator lives -/
  | retained
  /-- until its scope ends -/
  | clearedAtScopeEnd
  deriving DecidableEq, Inhabited

/-- Why a field is there. -/
inductive CaptureOrigin where
  /-- a parameter -/
  | parameter
  /-- a declared variable -/
  | localVar
  /-- the selector of a machine -/
  | selector
  /-- the bookkeeping of loops, delegation and guards -/
  | synthetic
  deriving DecidableEq, Inhabited

/-- A field. -/
structure Capture where
  /-- the variable that it holds -/
  symbol : SymbolId
  /-- its name, different from that of every other field -/
  name : String
  /-- its type -/
  type : TypeRef
  /-- how long it keeps its value -/
  liveness : Liveness
  /-- why it is there -/
  origin : CaptureOrigin
  deriving Inhabited

/-- Whether the field is dropped where its scope ends. -/
def Capture.isCleared (c : Capture) : Bool := c.liveness == .clearedAtScopeEnd

/-- Fields in the order of their symbols. -/
structure CaptureSet where
  fields : List (SymbolId × Capture)
  deriving Inhabited

namespace CaptureSet

/-- No fields. -/
def empty : CaptureSet := ⟨[]⟩

/-- The entries with one more, in order; an entry of the same symbol is replaced. -/
def insertEntry (key : SymbolId) (c : Capture) :
    List (SymbolId × Capture) → List (SymbolId × Capture)
  | [] => [(key, c)]
  | (k, d) :: rest =>
    if key.index < k.index then (key, c) :: (k, d) :: rest
    else if key = k then (key, c) :: rest
    else (k, d) :: insertEntry key c rest

/-- Adds a field under its symbol. -/
def insert (s : CaptureSet) (c : Capture) : CaptureSet := ⟨insertEntry c.symbol c s.fields⟩

/-- The field of a symbol. -/
def get? (s : CaptureSet) (symbol : SymbolId) : Option Capture := s.fields.lookup symbol

/-- Whether a symbol has a field. -/
def contains (s : CaptureSet) (symbol : SymbolId) : Bool := (s.get? symbol).isSome

/-- The fields in order. -/
def toList (s : CaptureSet) : List Capture := s.fields.map Prod.snd

/-- The number of fields. -/
def size (s : CaptureSet) : Nat := s.fields.length

end CaptureSet

end Resumable
