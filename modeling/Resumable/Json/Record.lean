import Resumable.Json.Basic
import Resumable.Text.Decimal

/-!
# Records and variants in JSON

How typed trees stand in JSON values.

* a record is an object with the declared field names, or a list of its fields in declared order;
  a declared field may not be given twice, members of other names do not matter;
* a field that has a default may be left out in both forms, a field that may be empty only in the
  object form;
* a variant is its bare name, or an object whose one member has that name;
* a decoder is given the number of lists and objects that may still be opened, and refuses a value
  that nests deeper.
-/

namespace Resumable

namespace Json

/-- Reads a value inside which at most the given number of levels may be opened. -/
abbrev Decoder (α : Type) := Nat → Json → Option α

/-- The number of levels that a document may open. -/
def levelLimit : Nat := 127

/-- What a record says about one of its declared fields. -/
inductive Slot where
  /-- the field has this value -/
  | given (j : Json)
  /-- the record names its fields, and this one is not among them -/
  | unnamed
  /-- the record lists its fields, and ends before this one -/
  | unlisted

namespace Slot

/-- A field that has to be there. -/
def required {α : Type} (d : Json → Option α) : Slot → Option α
  | .given j => d j
  | _ => none

/-- A field that counts as `fallback` where it is left out. -/
def withDefault {α : Type} (fallback : α) (d : Json → Option α) : Slot → Option α
  | .given j => d j
  | _ => some fallback

/-- The content of a field that may be `null`. -/
def nullable {α : Type} (d : Json → Option α) : Json → Option (Option α)
  | .null => some none
  | j => (d j).map some

/-- A field that may be empty: `null`, or not named. -/
def optional {α : Type} (d : Json → Option α) : Slot → Option (Option α)
  | .given j => nullable d j
  | .unnamed => some none
  | .unlisted => none

end Slot

/-- The values of all members of that name. -/
def membersNamed (name : String) (members : List (String × Json)) : List Json :=
  members.filterMap fun (k, j) => if k = name then some j else none

/-- The slot of the field `name` among named members; none if it is given twice. -/
def slotOf (members : List (String × Json)) (name : String) : Option Slot :=
  match membersNamed name members with
  | [] => some .unnamed
  | [j] => some (.given j)
  | _ => none

/-- The slots of the declared fields among listed items; none if there are more items. -/
def slotsOfItems : List String → List Json → Option (List Slot)
  | [], [] => some []
  | [], _ :: _ => none
  | _ :: names, [] => (slotsOfItems names []).map (.unlisted :: ·)
  | _ :: names, j :: js => (slotsOfItems names js).map (.given j :: ·)

/-- The slots of the declared fields of a record. -/
def slots (names : List String) : Json → Option (List Slot)
  | .obj members => names.mapM (slotOf members)
  | .arr items => slotsOfItems names items
  | _ => none

/-- The slots of the declared fields of a record that may have no other members. -/
def closedSlots (names : List String) : Json → Option (List Slot)
  | .obj members =>
    if members.all fun (k, _) => names.contains k then names.mapM (slotOf members) else none
  | j => slots names j

/-! ## Scalars -/

/-- A text. -/
def text? : Json → Option String
  | .str s => some s
  | _ => none

/-- A truth value. -/
def bool? : Json → Option Bool
  | .bool b => some b
  | _ => none

/-- A natural number below `bound`. -/
def natBelow? (bound : Nat) : Json → Option Nat
  | .int (.ofNat n) => if n < bound then some n else none
  | _ => none

/-- A natural number of 32 bits: an identity of a symbol, state or machine. -/
def word32? : Json → Option Nat := natBelow? (Nat.pow 2 32)

/-- A natural number of 64 bits: a position or an index. -/
def word64? : Json → Option Nat := natBelow? (Nat.pow 2 64)

/-- A signed number of 64 bits. -/
def int64? : Json → Option Int64
  | .int n => if -Text.int64Bound ≤ n ∧ n < Text.int64Bound then some (Int64.ofInt n) else none
  | _ => none

/-- A list whose items are read by `d`. -/
def list? {α : Type} (d : Decoder α) : Decoder (List α)
  | levels + 1, .arr items => items.mapM (d levels)
  | _, _ => none

/-- A natural number. -/
def ofNat (n : Nat) : Json := .int n

/-- A field that is written as `null` where it is empty. -/
def ofOption {α : Type} (f : α → Json) : Option α → Json
  | some a => f a
  | none => .null

end Json

end Resumable
