import Resumable.Json.Record

/-!
# Places in a source text

* lines and columns count from 1, the offset from 0, all in characters;
* line 0 marks a place that is not known.
-/

namespace Resumable

/-- A place in a named source text. -/
structure Location where
  /-- name of the text; empty for a text without a name -/
  file : String
  /-- line, from 1; 0 if the place is not known -/
  line : Nat
  /-- column, from 1 -/
  column : Nat
  /-- number of characters before the place -/
  offset : Nat
  deriving DecidableEq, Inhabited

namespace Location

/-- The place of a node that has none. -/
def unknown : Location := ⟨"", 0, 0, 0⟩

/-- Whether the place is not known. -/
def isUnknown (l : Location) : Bool := l.line == 0

/-- The place as messages write it. -/
def text (l : Location) : String :=
  if l.isUnknown then "<unknown>"
  else if l.file.isEmpty then s!"{l.line}:{l.column}"
  else s!"{l.file}:{l.line}:{l.column}"

/-! ## Exchange form -/

/-- The place as a record. -/
def toJson (l : Location) : Json :=
  .obj [("file", .str l.file), ("line", .ofNat l.line), ("column", .ofNat l.column),
    ("offset", .ofNat l.offset)]

/-- Reads a place from a record. -/
def ofJson? : Json.Decoder Location
  | _ + 1, j => do
    let [file, line, column, offset] ← Json.slots ["file", "line", "column", "offset"] j | none
    return ⟨← file.required Json.text?, ← line.required Json.word64?,
      ← column.required Json.word64?, ← offset.required Json.word64?⟩
  | 0, _ => none

end Location

end Resumable
