import Resumable.Tree.Expr
import Resumable.Json.Reader

/-!
# Settings

* every setting has a default; a settings file may name any of them, and nothing else;
* the two markers have names, and different ones.
-/

namespace Resumable

/-- What can be chosen about lowering. -/
structure Settings where
  /-- name of the marker that emits one value -/
  emitMarker : String := "step"
  /-- name of the marker that emits every value of an iterator -/
  emitAllMarker : String := "stepAll"
  /-- what follows the name of the procedure in the name of its class -/
  classSuffix : String := "$Generator"
  /-- whether a reference is dropped where its scope ends -/
  clearReferences : Bool := true
  /-- type of the emitted values where a procedure declares none -/
  defaultElementType : String := "Object"
  deriving DecidableEq, Inhabited

/-- Why settings are refused. -/
inductive SettingsError where
  /-- the text holds no settings -/
  | malformed
  /-- a marker has no name -/
  | emptyMarker
  /-- both markers have this name -/
  | sameMarkers (name : String)
  deriving DecidableEq

/-- The message of an error about well-formed settings. -/
def SettingsError.message : SettingsError → String
  | .malformed => "invalid config"
  | .emptyMarker => "invalid config: marker names must not be empty"
  | .sameMarkers name => s!"invalid config: emit and emit-all markers are both `{name}`"

namespace Settings

/-- The names of the two markers. -/
def markers (s : Settings) : Markers := ⟨s.emitMarker, s.emitAllMarker⟩

/-- The type of the emitted values where a procedure declares none. -/
def fallbackElementType (s : Settings) : TypeRef := .named s.defaultElementType

/-- The settings as a record. -/
def toJson (s : Settings) : Json :=
  .obj [("emit_marker", .str s.emitMarker), ("emit_all_marker", .str s.emitAllMarker),
    ("class_suffix", .str s.classSuffix), ("clear_references", .bool s.clearReferences),
    ("default_element_type", .str s.defaultElementType)]

/-- Reads settings from a record without other members. -/
def ofJson? (j : Json) : Option Settings := do
  let d : Settings := {}
  let [emit, emitAll, suffix, clear, element] ←
    Json.closedSlots ["emit_marker", "emit_all_marker", "class_suffix", "clear_references",
      "default_element_type"] j | none
  return ⟨← emit.withDefault d.emitMarker Json.text?,
    ← emitAll.withDefault d.emitAllMarker Json.text?,
    ← suffix.withDefault d.classSuffix Json.text?,
    ← clear.withDefault d.clearReferences Json.bool?,
    ← element.withDefault d.defaultElementType Json.text?⟩

/-- Refuses markers without a name or of one name. -/
def validate (s : Settings) : Except SettingsError Settings :=
  if s.emitMarker.isEmpty || s.emitAllMarker.isEmpty then .error .emptyMarker
  else if s.emitMarker == s.emitAllMarker then .error (.sameMarkers s.emitMarker)
  else .ok s

/-- Reads settings from a text. -/
def ofText (text : String) : Except SettingsError Settings :=
  match (Json.ofText? text).bind ofJson? with
  | some s => s.validate
  | none => .error .malformed

end Settings

end Resumable
