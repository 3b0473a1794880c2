import Resumable.Machine.Captures
import Resumable.Render.Expr

/-!
# Indented lines

* a line is put together from fragments, which keep apart what names stand for until the line is
  written;
* a line is indented by four blanks for each level that it stands inside; an empty line by none.
-/

namespace Resumable

/-- A variable that is no variable of the procedure. -/
inductive OwnName where
  /-- the value to be handed out -/
  | current
  /-- whether there is such a value -/
  | buffered
  /-- the value that is handed out -/
  | value
  /-- what was thrown -/
  | failure
  /-- a resource that is being closed -/
  | closing
  /-- what was thrown by closing a resource -/
  | suppressed
  /-- what is thrown again behind final code -/
  | rethrown
  /-- what is thrown unchecked -/
  | thrown
  deriving DecidableEq

/-- Such a variable as it is printed. -/
def OwnName.text : OwnName → String
  | current => "current$"
  | buffered => "buffered$"
  | value => "value$"
  | failure => "failure$"
  | closing => "closing$"
  | suppressed => "suppressed$"
  | rethrown => "rethrown$"
  | thrown => "t"

/-- A part of a printed line. -/
inductive Fragment where
  /-- text without variables -/
  | word (s : String)
  /-- an expression -/
  | expr (e : Expr)
  /-- a name that is declared -/
  | ident (x : Ident)
  /-- the field of a variable -/
  | field (symbol : SymbolId)
  /-- a field where it is declared -/
  | declared (f : Capture)
  /-- a parameter of the constructor -/
  | argument (x : Ident)
  /-- a variable that is no variable of the procedure -/
  | own (o : OwnName)

/-- A fragment as it is printed. -/
def Fragment.text (symbols : SymbolTable) : Fragment → String
  | word s => s
  | expr e => e.text symbols
  | ident x => x.text symbols
  | field symbol => symbols.display symbol
  | declared f => f.name
  | argument x => x.name
  | own o => o.text

/-- Fragments one behind the other. -/
abbrev Printed := List Fragment

instance : Coe String Printed := ⟨fun s => [.word s]⟩

instance : Coe Expr Printed := ⟨fun e => [.expr e]⟩

instance : Coe Ident Printed := ⟨fun x => [.ident x]⟩

instance : Coe SymbolId Printed := ⟨fun x => [.field x]⟩

instance : Coe OwnName Printed := ⟨fun o => [.own o]⟩

namespace Printed

/-- Fragments as they are printed. -/
def text (symbols : SymbolTable) (ps : Printed) : String :=
  String.join (ps.map (Fragment.text symbols))

/-- Fragments with a text between them. -/
def joined (sep : String) (ps : List Printed) : Printed := (ps.intersperse [.word sep]).flatten

end Printed

/-- A line of output. -/
inductive Line where
  /-- fragments inside some levels -/
  | text (level : Nat) (ps : Printed)
  /-- an empty line -/
  | blank
  deriving Inhabited

namespace Line

/-- The line one level further in. -/
def indent : Line → Line
  | text level ps => text (level + 1) ps
  | blank => blank

/-- The fragments of a line. -/
def fragments : Line → Printed
  | text _ ps => ps
  | blank => []

/-- The line as it is written, with its line end. -/
def written (symbols : SymbolTable) : Line → String
  | text level ps => String.ofList (List.replicate (4 * level) ' ') ++ ps.text symbols ++ "\n"
  | blank => "\n"

end Line

/-- One line that is not indented. -/
def line (ps : Printed) : List Line := [.text 0 ps]

/-- Lines one level further in. -/
def nested (ls : List Line) : List Line := ls.map Line.indent

/-- Lines as they are written. -/
def writeLines (symbols : SymbolTable) (ls : List Line) : String :=
  ls.foldl (fun acc l => acc ++ l.written symbols) ""

end Resumable
