import Resumable.Execution.Functions

/-!
# Inspection

One-line descriptions of values, generators and hosts.
-/

namespace Resumable

/-- The text of a value, with texts in quotes. -/
def Value.inspect : Value → String
  | .str s => Text.inspect s
  | v => v.text

/-- A value that may be missing. -/
def inspectOption : Option Value → String
  | none => "None"
  | some v => "Some(" ++ v.inspect ++ ")"

/-- A generator: its class, its root selector and the value that waits. -/
def Instance.inspect (g : Instance) : String :=
  "GeneratorInstance \x7b class: " ++ Text.inspect g.cls.name
    ++ ", selector: " ++ inspectOption g.selector?
    ++ ", buffered: " ++ inspectOption g.buffered ++ " \x7d"

/-- Functions and a journal: the names of the functions, and the length of the journal. -/
def Functions.inspect (fs : Functions) (w : World) : String :=
  "Host \x7b functions: [" ++ ", ".intercalate (fs.names.map Text.inspect)
    ++ "], journal: " ++ toString w.journal.size ++ " \x7d"

end Resumable
