import Resumable.Json.Record

/-!
# Type names

* a type is a name with type arguments; it is written `Name<Arg, Arg>`;
* the eight value types hold no reference; every other type does.
-/

namespace Resumable

/-- A type name, possibly with type arguments. -/
structure TypeRef where
  /-- the name -/
  name : String
  /-- the type arguments -/
  args : List TypeRef
  deriving Inhabited

namespace TypeRef

/-- A type without arguments. -/
def named (name : String) : TypeRef := ⟨name, []⟩

/-- The type of integers. -/
def int : TypeRef := named "int"

/-- The type of truth values. -/
def boolean : TypeRef := named "boolean"

/-- The type of everything that can be thrown. -/
def throwable : TypeRef := named "Throwable"

/-- The type of iterators over values of type `element`. -/
def iteratorOf (element : TypeRef) : TypeRef := ⟨"Iterator", [element]⟩

/-- The names of the value types. -/
def primitiveNames : List String :=
  ["int", "long", "short", "byte", "char", "boolean", "float", "double"]

/-- Whether values of the type hold no reference. -/
def isPrimitive (t : TypeRef) : Bool := t.args.isEmpty && primitiveNames.contains t.name

mutual

/-- The type as it is written. -/
def text : TypeRef → String
  | ⟨name, []⟩ => name
  | ⟨name, a :: as⟩ => name ++ "<" ++ text a ++ argsText as ++ ">"

/-- The arguments after the first one, as they are written. -/
def argsText : List TypeRef → String
  | [] => ""
  | a :: as => ", " ++ text a ++ argsText as

end

/-! ## Exchange form -/

mutual

/-- The type as a record; the arguments are left out where there are none. -/
def toJson : TypeRef → Json
  | ⟨name, []⟩ => .obj [("name", .str name)]
  | ⟨name, a :: as⟩ => .obj [("name", .str name), ("args", .arr (toJson a :: listToJson as))]

/-- Types as records. -/
def listToJson : List TypeRef → List Json
  | [] => []
  | t :: ts => toJson t :: listToJson ts

end

mutual

/-- Reads a type from a record. -/
def ofJson? (levels : Nat) (j : Json) : Option TypeRef :=
  match levels with
  | levels + 1 => do
    let [name, args] ← Json.slots ["name", "args"] j | none
    return ⟨← name.required Json.text?, ← args.withDefault [] (listOfJson? levels)⟩
  | 0 => none

/-- Reads types from a list of records. -/
def listOfJson? (levels : Nat) (j : Json) : Option (List TypeRef) :=
  match levels, j with
  | levels + 1, .arr items => items.mapM (ofJson? levels)
  | _, _ => none

end

end TypeRef

end Resumable
