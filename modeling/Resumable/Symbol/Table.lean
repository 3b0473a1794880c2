import Resumable.Tree.Codec

/-!
# Symbols

The variables of one procedure, each at the index that is its identity.

* a variable is shown as its name, a dollar sign and its index, so no two are shown alike;
* the variables that lowering adds are synthetic.
-/

namespace Resumable

open Json (Decoder slots)

/-- Where a variable comes from. -/
inductive SymbolKind where
  /-- a parameter -/
  | parameter
  /-- a declaration in the body -/
  | localVar
  /-- added by lowering -/
  | synthetic
  deriving DecidableEq, Inhabited

namespace SymbolKind

/-- The name of a kind in the exchange form. -/
def tag : SymbolKind → String
  | parameter => "Parameter"
  | localVar => "Local"
  | synthetic => "Synthetic"

/-- The kind of that name. -/
def ofTag? : String → Option SymbolKind
  | "Parameter" => some parameter
  | "Local" => some localVar
  | "Synthetic" => some synthetic
  | _ => none

/-- Reads a kind from its name. -/
def ofJson? : Decoder SymbolKind := ofName? ofTag?

end SymbolKind

/-- What is known of a variable. -/
structure SymbolInfo where
  /-- its name in the source -/
  name : String
  /-- its type -/
  type : TypeRef
  /-- where it comes from -/
  kind : SymbolKind
  deriving Inhabited

namespace SymbolInfo

/-- The variable as a record. -/
def toJson (s : SymbolInfo) : Json :=
  .obj [("name", .str s.name), ("ty", s.type.toJson), ("kind", .str s.kind.tag)]

/-- Reads a variable from a record. -/
def ofJson? : Decoder SymbolInfo
  | levels + 1, j => do
    let [name, type, kind] ← slots ["name", "ty", "kind"] j | none
    return ⟨← name.required Json.text?, ← type.required (TypeRef.ofJson? levels),
      ← kind.required (SymbolKind.ofJson? levels)⟩
  | 0, _ => none

end SymbolInfo

/-- The variables of a procedure. -/
structure SymbolTable where
  /-- the variables, each at its identity -/
  symbols : Array SymbolInfo
  deriving Inhabited

namespace SymbolTable

/-- No variables. -/
def empty : SymbolTable := ⟨#[]⟩

/-- The number of variables. -/
def size (t : SymbolTable) : Nat := t.symbols.size

/-- Adds a variable and gives it the next identity. -/
def declare (t : SymbolTable) (name : String) (type : TypeRef) (kind : SymbolKind) :
    SymbolId × SymbolTable :=
  (⟨t.size⟩, ⟨t.symbols.push ⟨name, type, kind⟩⟩)

/-- What is known of a variable. -/
def get? (t : SymbolTable) (id : SymbolId) : Option SymbolInfo := t.symbols[id.index]?

/-- The name under which a variable is shown. -/
def display (t : SymbolTable) (id : SymbolId) : String :=
  match t.get? id with
  | some info => s!"{info.name}${id.index}"
  | none => s!"$unknown{id.index}"

/-- An occurrence of a variable. -/
def ident (t : SymbolTable) (id : SymbolId) : Ident :=
  ⟨((t.get? id).map SymbolInfo.name).getD "", some id⟩

/-- The variables as a record. -/
def toJson (t : SymbolTable) : Json :=
  .obj [("symbols", .arr (t.symbols.toList.map SymbolInfo.toJson))]

/-- Reads variables from a record. -/
def ofJson? : Decoder SymbolTable
  | levels + 1, j => do
    let [symbols] ← slots ["symbols"] j | none
    return ⟨(← symbols.required (Json.list? SymbolInfo.ofJson? levels)).toArray⟩
  | 0, _ => none

end SymbolTable

end Resumable
